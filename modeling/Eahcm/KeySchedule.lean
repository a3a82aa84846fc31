import Eahcm.States

/-!
The key schedule (`key_schedule.cpp`): HKDF over the HMAC of the crypto library, which is a
parameter here, and the states derived from it. The library answers each call with a digest
or with a failure, and may carry a state of its own from call to call. Everything a
derivation asks of it is four calls in a fixed order, and everything else is a function of
the two blocks it gets back (`deriveState_run`).
-/
namespace Eahcm.KeySchedule
open Eahcm.Types Eahcm.States Eahcm.LittleEndian
variable {σ : Type}

/-- A SHA3-256 digest. -/
abbrev Digest := { bytes : Bytes // bytes.length = 32 }
/-- `HMAC(EVP_sha3_256(), key, key_len, data, data_len, ...)`, with none for a null result. -/
abbrev Hmac (σ : Type) := Bytes → Int → Bytes → StateM σ (Option Digest)
/-- A derivation: it runs over the state of the crypto library and may throw. -/
abbrev Derive (σ α : Type) := ExceptT Fault (StateM σ) α

/-- `static_cast<int>` of a size. -/
def castInt (size : Nat) : Int := Int.bmod size (2 ^ 32)
/-- An access to an array in the course of a derivation. -/
def checked {α : Type} (access : Except Fault α) : Derive σ α := fun st => (access, st)
/-- `std::vector::resize`. -/
def resize (bytes : Bytes) (length : Nat) : Bytes := bytes.take length ++ List.replicate (length - bytes.length) 0

def hmacFailed : Fault := .runtimeError "HMAC-SHA3-256 failed"

def sha3256Hmac (hmac : Hmac σ) (key data : Bytes) : Derive σ Digest := do
  match ← (hmac key (castInt key.length) data : StateM σ (Option Digest)) with
  | some result => return result
  | none => throw hmacFailed

def hkdfExtract (hmac : Hmac σ) (salt ikm : Bytes) : Derive σ Digest :=
  if salt.isEmpty then sha3256Hmac hmac (List.replicate 32 0) ikm else sha3256Hmac hmac salt ikm

/-- The loop of HKDF-Expand: `left` blocks to go, the next one numbered `i`. -/
def expandBlocks (hmac : Hmac σ) (prk info : Bytes) : Nat → Nat → Bytes → Bytes → Derive σ Bytes
  | 0, _, _, okm => return okm
  | left + 1, i, tPrev, okm => do
    let block ← sha3256Hmac hmac prk (tPrev ++ info ++ [BitVec.ofNat 8 i])
    expandBlocks hmac prk info left (i + 1) block.val (okm ++ block.val)

def hkdfExpand (hmac : Hmac σ) (prk info : Bytes) (length : Nat) : Derive σ Bytes := do
  if length > 32 * 255 then throw (.invalidArgument "HKDF-Expand: requested length exceeds maximum")
  let okm ← expandBlocks hmac prk info ((length + 32 - 1) / 32) 1 [] []
  return resize okm length

def hkdf (hmac : Hmac σ) (ikm salt info : Bytes) (length : Nat) : Derive σ Bytes := do
  let prk ← hkdfExtract hmac salt ikm
  hkdfExpand hmac prk.val info length

/-- The bytes of a string literal. -/
def literal (text : String) : Bytes := text.toList.map fun c => BitVec.ofNat 8 c.toNat

def defaultInfo : Bytes := literal "EAHCM-v1"
def buildInfo (info : Bytes) (suffix : String) : Bytes :=
  (if info.isEmpty then defaultInfo else info) ++ literal suffix
def buildSalt (nonce salt : Bytes) : Bytes := nonce ++ salt

structure InitParams where
  initX : Word32
  initY : Word32
  initZ : Word32
  initW : Word32
  initAlpha : Word32
  initGamma : Word32
  initMu : Word32
  initSigma : Word32
deriving DecidableEq, Repr

def getInitParams (hmac : Hmac σ) (userKey nonce salt info : Bytes) : Derive σ InitParams := do
  if userKey.isEmpty then throw (.keyError "user_key must not be empty")
  let derivedSalt := buildSalt nonce salt
  let stateBytes ← hkdf hmac userKey derivedSalt (buildInfo info "-state-init") 16
  let paramBytes ← hkdf hmac userKey derivedSalt (buildInfo info "-param-init") 16
  let rawX ← checked (loadLe32 stateBytes 0)
  let rawY ← checked (loadLe32 stateBytes 4)
  let rawZ ← checked (loadLe32 stateBytes 8)
  let rawW ← checked (loadLe32 stateBytes 12)
  let rawAlpha ← checked (loadLe32 paramBytes 0)
  let rawGamma ← checked (loadLe32 paramBytes 4)
  let rawMu ← checked (loadLe32 paramBytes 8)
  let rawSigma ← checked (loadLe32 paramBytes 12)
  return ⟨guardAbsorbing rawX, guardAbsorbing rawY, guardAbsorbing rawZ, guardAbsorbing rawW,
    clampParam rawAlpha, clampParam rawGamma, clampParam rawMu, clampParam rawSigma⟩

/-- The parameters are clamped a second time by `makeState`, which is not the same as once. -/
def deriveState (hmac : Hmac σ) (userKey nonce salt info : Bytes) : Derive σ State := do
  let params ← getInitParams hmac userKey nonce salt info
  return warmup (makeState params.initX params.initY params.initZ params.initW
    params.initAlpha params.initGamma params.initMu params.initSigma)

/-- The hash xored into the state words, and the steps that follow. -/
def mixHash (s : State) (hx hy hz hw : Word32) : State :=
  step^[postHashSteps] { s with
    x := guardAbsorbing (s.x ^^^ hx)
    y := guardAbsorbing (s.y ^^^ hy)
    z := guardAbsorbing (s.z ^^^ hz)
    w := guardAbsorbing (s.w ^^^ hw) }

def deriveStateWithMixing (hmac : Hmac σ) (userKey nonce plaintextHash salt info : Bytes) : Derive σ State := do
  if plaintextHash.length < 16 then throw (.keyError "plaintext_hash must be at least 16 bytes")
  let s ← deriveState hmac userKey nonce salt info
  let hx ← checked (loadLe32 plaintextHash 0)
  let hy ← checked (loadLe32 plaintextHash 4)
  let hz ← checked (loadLe32 plaintextHash 8)
  let hw ← checked (loadLe32 plaintextHash 12)
  return mixHash s hx hy hz hw

section
variable {α β : Type}

@[simp] theorem pure_run (a : α) (st : σ) : (pure a : Derive σ α) st = (.ok a, st) := rfl
theorem bind_ok {m : Derive σ α} {st st' : σ} {a : α} (ran : m st = (.ok a, st')) (f : α → Derive σ β) :
    (m >>= f) st = f a st' := by
  change ExceptT.bindCont f (m st).1 (m st).2 = _
  rw [ran]
  rfl
theorem bind_error {m : Derive σ α} {st st' : σ} {e : Fault} (ran : m st = (.error e, st')) (f : α → Derive σ β) :
    (m >>= f) st = (.error e, st') := by
  change ExceptT.bindCont f (m st).1 (m st).2 = _
  rw [ran]
  rfl
end

theorem sha3256Hmac_run (hmac : Hmac σ) (key data : Bytes) (st : σ) :
    sha3256Hmac hmac key data st =
      match hmac key (castInt key.length) data st with
      | (none, st') => (.error hmacFailed, st')
      | (some d, st') => (.ok d, st') := by
  change (match (hmac key (castInt key.length) data st).1 with | some result => pure result | none => throw hmacFailed :
    Derive σ Digest) (hmac key (castInt key.length) data st).2 = _
  rcases hmac key (castInt key.length) data st with ⟨_ | d, st'⟩ <;> rfl
theorem sha3256Hmac_some {hmac : Hmac σ} {key data : Bytes} {st st' : σ} {d : Digest}
    (answer : hmac key (castInt key.length) data st = (some d, st')) :
    sha3256Hmac hmac key data st = (.ok d, st') := by
  rw [sha3256Hmac_run, answer]
theorem sha3256Hmac_none {hmac : Hmac σ} {key data : Bytes} {st st' : σ}
    (answer : hmac key (castInt key.length) data st = (none, st')) :
    sha3256Hmac hmac key data st = (.error hmacFailed, st') := by
  rw [sha3256Hmac_run, answer]

/-! ## What a derivation asks of the crypto library -/

/-- The HMAC key that HKDF-Extract uses for a salt. -/
def extractKey (salt : Bytes) : Bytes := if salt.isEmpty then List.replicate 32 0 else salt

theorem hkdfExtract_eq (hmac : Hmac σ) (salt ikm : Bytes) :
    hkdfExtract hmac salt ikm = sha3256Hmac hmac (extractKey salt) ikm := by
  by_cases empty : salt.isEmpty = true
  · simp [hkdfExtract, extractKey, empty]
  · simp [hkdfExtract, extractKey, empty]

/-- The two calls of an HKDF of one block. -/
def exchange (hmac : Hmac σ) (ikm salt info : Bytes) (st : σ) : Option Digest × σ :=
  match hmac (extractKey salt) (castInt (extractKey salt).length) ikm st with
  | (none, st') => (none, st')
  | (some prk, st') => hmac prk.val 32 (info ++ [1]) st'
/-- The four calls of a derivation. -/
def exchanges (hmac : Hmac σ) (userKey nonce salt info : Bytes) (st : σ) : Option (Digest × Digest) × σ :=
  match exchange hmac userKey (buildSalt nonce salt) (buildInfo info "-state-init") st with
  | (none, st') => (none, st')
  | (some stateBlock, st') =>
    match exchange hmac userKey (buildSalt nonce salt) (buildInfo info "-param-init") st' with
    | (none, st'') => (none, st'')
    | (some paramBlock, st'') => (some (stateBlock, paramBlock), st'')

/-- The word at an offset of a block. -/
def wordOf (block : Bytes) (off : Nat) : Word32 := ofBytes 32 ((block.drop off).take 4)
/-- The parameters read from the two blocks a derivation gets. -/
def paramsOf (stateBlock paramBlock : Digest) : InitParams where
  initX := guardAbsorbing (wordOf stateBlock.val 0)
  initY := guardAbsorbing (wordOf stateBlock.val 4)
  initZ := guardAbsorbing (wordOf stateBlock.val 8)
  initW := guardAbsorbing (wordOf stateBlock.val 12)
  initAlpha := clampParam (wordOf paramBlock.val 0)
  initGamma := clampParam (wordOf paramBlock.val 4)
  initMu := clampParam (wordOf paramBlock.val 8)
  initSigma := clampParam (wordOf paramBlock.val 12)
def stateOf (params : InitParams) : State :=
  warmup (makeState params.initX params.initY params.initZ params.initW
    params.initAlpha params.initGamma params.initMu params.initSigma)

theorem hkdfExpand_block (hmac : Hmac σ) (prk : Digest) (info : Bytes) (length : Nat) (positive : 0 < length)
    (one : length ≤ 32) (st : σ) : hkdfExpand hmac prk.val info length st =
      match hmac prk.val 32 (info ++ [1]) st with
      | (none, st') => (.error hmacFailed, st')
      | (some block, st') => (.ok (block.val.take length), st') := by
  have blocks : (length + 32 - 1) / 32 = 1 := by omega
  have short : ¬ length > 32 * 255 := by omega
  have key : castInt prk.val.length = 32 := by rw [prk.property]; decide
  unfold hkdfExpand
  simp only [short, if_false, blocks, expandBlocks, List.nil_append]
  rcases answer : hmac prk.val 32 (info ++ [1]) st with ⟨given, st'⟩
  cases given with
  | none =>
    have failed : sha3256Hmac hmac prk.val (info ++ [BitVec.ofNat 8 1]) st = (.error hmacFailed, st') :=
      sha3256Hmac_none (by rw [key]; exact answer)
    exact bind_error (bind_error failed _) _
  | some block =>
    have ran : sha3256Hmac hmac prk.val (info ++ [BitVec.ofNat 8 1]) st = (.ok block, st') :=
      sha3256Hmac_some (by rw [key]; exact answer)
    rw [bind_ok (bind_ok ran _)]
    have enough : length - block.val.length = 0 := by rw [block.property]; omega
    simp [resize, enough]

/-- An HKDF of at most one block is an exchange of two calls. -/
theorem hkdf_block (hmac : Hmac σ) (ikm salt info : Bytes) (length : Nat) (positive : 0 < length)
    (one : length ≤ 32) (st : σ) : hkdf hmac ikm salt info length st =
      match exchange hmac ikm salt info st with
      | (none, st') => (.error hmacFailed, st')
      | (some block, st') => (.ok (block.val.take length), st') := by
  unfold hkdf
  rw [hkdfExtract_eq]
  rcases answer : hmac (extractKey salt) (castInt (extractKey salt).length) ikm st with ⟨given, st'⟩
  cases given with
  | none =>
    rw [bind_error (sha3256Hmac_none answer)]
    simp [exchange, answer]
  | some prk =>
    rw [bind_ok (sha3256Hmac_some answer), hkdfExpand_block hmac prk info length positive one]
    simp only [exchange, answer]
    rfl

theorem loadLe32_take (block : Digest) (off : Nat) (inside : off + 4 ≤ 16) :
    loadLe32 (block.val.take 16) off = .ok (wordOf block.val off) := by
  have size := block.property
  rw [loadLe32_inside (by simp; omega), wordOf, List.drop_take, List.take_take, Nat.min_eq_left (by omega)]

theorem getInitParams_run (hmac : Hmac σ) (userKey nonce salt info : Bytes) (key : userKey ≠ []) (st : σ) :
    getInitParams hmac userKey nonce salt info st =
      match exchanges hmac userKey nonce salt info st with
      | (none, st') => (.error hmacFailed, st')
      | (some (stateBlock, paramBlock), st') => (.ok (paramsOf stateBlock paramBlock), st') := by
  have present : userKey.isEmpty = false := by simpa using key
  unfold getInitParams exchanges
  simp only [present, Bool.false_eq_true, if_false]
  have first := hkdf_block hmac userKey (buildSalt nonce salt) (buildInfo info "-state-init") 16 (by decide) (by decide) st
  rcases firstAnswer : exchange hmac userKey (buildSalt nonce salt) (buildInfo info "-state-init") st with ⟨given, st'⟩
  rw [firstAnswer] at first
  cases given with
  | none => exact bind_error first _
  | some stateBlock =>
    have second :=
      hkdf_block hmac userKey (buildSalt nonce salt) (buildInfo info "-param-init") 16 (by decide) (by decide) st'
    rcases secondAnswer : exchange hmac userKey (buildSalt nonce salt) (buildInfo info "-param-init") st'
      with ⟨given', st''⟩
    rw [secondAnswer] at second
    rw [bind_ok first]
    cases given' with
    | none => simpa only [secondAnswer] using bind_error second _
    | some paramBlock =>
      rw [bind_ok second]
      simp only [loadLe32_take _ _ (show 0 + 4 ≤ 16 by decide), loadLe32_take _ _ (show 4 + 4 ≤ 16 by decide),
        loadLe32_take _ _ (show 8 + 4 ≤ 16 by decide), loadLe32_take _ _ (show 12 + 4 ≤ 16 by decide), secondAnswer]
      rfl

/-- A derivation with a key is its four calls, and a function of the two blocks they return. -/
theorem deriveState_run (hmac : Hmac σ) (userKey nonce salt info : Bytes) (key : userKey ≠ []) (st : σ) :
    deriveState hmac userKey nonce salt info st =
      match exchanges hmac userKey nonce salt info st with
      | (none, st') => (.error hmacFailed, st')
      | (some (stateBlock, paramBlock), st') => (.ok (stateOf (paramsOf stateBlock paramBlock)), st') := by
  have params := getInitParams_run hmac userKey nonce salt info key st
  rcases answer : exchanges hmac userKey nonce salt info st with ⟨given, st'⟩
  rw [answer] at params
  cases given with
  | none => exact bind_error params _
  | some blocks => exact bind_ok params _

/-- What a derivation can return is a warmed-up state made of some parameters. -/
theorem deriveState_ok {hmac : Hmac σ} {userKey nonce salt info : Bytes} {st st' : σ} {s : State}
    (ran : deriveState hmac userKey nonce salt info st = (.ok s, st')) :
    userKey ≠ [] ∧ ∃ stateBlock paramBlock, exchanges hmac userKey nonce salt info st =
      (some (stateBlock, paramBlock), st') ∧ s = stateOf (paramsOf stateBlock paramBlock) := by
  by_cases key : userKey = []
  · subst key
    cases ran
  · rw [deriveState_run hmac userKey nonce salt info key st] at ran
    rcases answer : exchanges hmac userKey nonce salt info st with ⟨_ | ⟨stateBlock, paramBlock⟩, st''⟩
    · rw [answer] at ran
      cases ran
    · rw [answer] at ran
      cases ran
      exact ⟨key, stateBlock, paramBlock, rfl, rfl⟩

theorem stateOf_inRegime (params : InitParams) : InRegime (stateOf params) := by
  rw [stateOf, warmup]
  exact iterate_inRegime (makeState_inRegime _ _ _ _ _ _ _ _) warmupSteps
theorem stateOf_counter (params : InitParams) : (stateOf params).counter = BitVec.ofNat 32 warmupSteps := by
  rw [stateOf, warmup, iterate_counter]
  exact BitVec.zero_add _

theorem mixHash_inRegime {s : State} (inside : InRegime s) (hx hy hz hw : Word32) :
    InRegime (mixHash s hx hy hz hw) := by
  rw [mixHash]
  apply iterate_inRegime
  exact ⟨inside.alpha, inside.gamma, inside.mu, inside.sigma⟩
theorem mixHash_counter (s : State) (hx hy hz hw : Word32) :
    (mixHash s hx hy hz hw).counter = s.counter + BitVec.ofNat 32 postHashSteps := by
  rw [mixHash, iterate_counter]

theorem deriveStateWithMixing_run (hmac : Hmac σ) (userKey nonce plaintextHash salt info : Bytes)
    (long : 16 ≤ plaintextHash.length) (st : σ) :
    deriveStateWithMixing hmac userKey nonce plaintextHash salt info st =
      match deriveState hmac userKey nonce salt info st with
      | (.error e, st') => (.error e, st')
      | (.ok s, st') => (.ok (mixHash s (wordOf plaintextHash 0) (wordOf plaintextHash 4) (wordOf plaintextHash 8)
          (wordOf plaintextHash 12)), st') := by
  have enough : ¬ plaintextHash.length < 16 := by omega
  unfold deriveStateWithMixing
  simp only [enough, if_false]
  rcases derived : deriveState hmac userKey nonce salt info st with ⟨e | s, st'⟩
  · exact bind_error derived _
  · refine (bind_ok derived _).trans ?_
    rw [loadLe32_inside (by omega), loadLe32_inside (by omega), loadLe32_inside (by omega), loadLe32_inside (by omega)]
    rfl

/-! ## Crypto libraries that do not fail -/

/-- HMAC returns a digest at every call. -/
def NeverFails (hmac : Hmac σ) : Prop := ∀ key keyLen data st, (hmac key keyLen data st).1.isSome = true
/-- HMAC is a function of the key and the data. -/
def Computes (hmac : Hmac σ) (H : Bytes → Int → Bytes → Digest) : Prop :=
  ∀ key keyLen data st, (hmac key keyLen data st).1 = some (H key keyLen data)

theorem Computes.neverFails {hmac : Hmac σ} {H : Bytes → Int → Bytes → Digest} (computes : Computes hmac H) :
    NeverFails hmac := by
  intro key keyLen data st
  rw [computes key keyLen data st]
  rfl

theorem NeverFails.answer {hmac : Hmac σ} (never : NeverFails hmac) (key : Bytes) (keyLen : Int) (data : Bytes) (st : σ) :
    ∃ d st', hmac key keyLen data st = (some d, st') := by
  obtain ⟨d, given⟩ := Option.isSome_iff_exists.mp (never key keyLen data st)
  exact ⟨d, _, Prod.ext given rfl⟩
theorem Computes.answer {hmac : Hmac σ} {H : Bytes → Int → Bytes → Digest} (computes : Computes hmac H) (key : Bytes)
    (keyLen : Int) (data : Bytes) (st : σ) : ∃ st', hmac key keyLen data st = (some (H key keyLen data), st') :=
  ⟨_, Prod.ext (computes key keyLen data st) rfl⟩

theorem exchange_answered {hmac : Hmac σ} (never : NeverFails hmac) (ikm salt info : Bytes) (st : σ) :
    ∃ block st', exchange hmac ikm salt info st = (some block, st') := by
  obtain ⟨prk, st', first⟩ := never.answer (extractKey salt) (castInt (extractKey salt).length) ikm st
  obtain ⟨block, st'', second⟩ := never.answer prk.val 32 (info ++ [1]) st'
  exact ⟨block, st'', by simp only [exchange, first, second]⟩
theorem exchanges_answered {hmac : Hmac σ} (never : NeverFails hmac) (userKey nonce salt info : Bytes) (st : σ) :
    ∃ blocks st', exchanges hmac userKey nonce salt info st = (some blocks, st') := by
  obtain ⟨stateBlock, st', first⟩ :=
    exchange_answered never userKey (buildSalt nonce salt) (buildInfo info "-state-init") st
  obtain ⟨paramBlock, st'', second⟩ :=
    exchange_answered never userKey (buildSalt nonce salt) (buildInfo info "-param-init") st'
  exact ⟨(stateBlock, paramBlock), st'', by simp only [exchanges, first, second]⟩

/-- With a key and a library that does not fail, a state is derived. -/
theorem deriveState_total {hmac : Hmac σ} (never : NeverFails hmac) (userKey nonce salt info : Bytes)
    (key : userKey ≠ []) (st : σ) :
    ∃ params st', deriveState hmac userKey nonce salt info st = (.ok (stateOf params), st') := by
  obtain ⟨⟨stateBlock, paramBlock⟩, st', answered⟩ := exchanges_answered never userKey nonce salt info st
  exact ⟨paramsOf stateBlock paramBlock, st', by rw [deriveState_run _ _ _ _ _ key, answered]⟩

/-- The block that a functional HMAC gives for an HKDF of one block. -/
def blockOf (H : Bytes → Int → Bytes → Digest) (ikm salt info : Bytes) : Digest :=
  H (H (extractKey salt) (castInt (extractKey salt).length) ikm).val 32 (info ++ [1])
/-- The state that a functional HMAC derives from a key. -/
def derivedState (H : Bytes → Int → Bytes → Digest) (userKey nonce salt info : Bytes) : State :=
  stateOf (paramsOf (blockOf H userKey (buildSalt nonce salt) (buildInfo info "-state-init"))
    (blockOf H userKey (buildSalt nonce salt) (buildInfo info "-param-init")))

theorem exchange_computes {hmac : Hmac σ} {H : Bytes → Int → Bytes → Digest} (computes : Computes hmac H)
    (ikm salt info : Bytes) (st : σ) :
    ∃ st', exchange hmac ikm salt info st = (some (blockOf H ikm salt info), st') := by
  obtain ⟨st', first⟩ := computes.answer (extractKey salt) (castInt (extractKey salt).length) ikm st
  obtain ⟨st'', second⟩ := computes.answer
    (H (extractKey salt) (castInt (extractKey salt).length) ikm).val 32 (info ++ [1]) st'
  exact ⟨st'', by simp only [exchange, first, second, blockOf]⟩
/-- With a functional HMAC the derived state depends on the key material alone. -/
theorem deriveState_computes {hmac : Hmac σ} {H : Bytes → Int → Bytes → Digest} (computes : Computes hmac H)
    (userKey nonce salt info : Bytes) (key : userKey ≠ []) (st : σ) :
    ∃ st', deriveState hmac userKey nonce salt info st = (.ok (derivedState H userKey nonce salt info), st') := by
  obtain ⟨st', first⟩ := exchange_computes computes userKey (buildSalt nonce salt) (buildInfo info "-state-init") st
  obtain ⟨st'', second⟩ := exchange_computes computes userKey (buildSalt nonce salt) (buildInfo info "-param-init") st'
  refine ⟨st'', ?_⟩
  rw [deriveState_run hmac userKey nonce salt info key st]
  simp only [exchanges, first, second, derivedState]

/-- A library that computes a function. -/
def pureHmac (H : Bytes → Int → Bytes → Digest) : Hmac Unit := fun key keyLen data st =>
  (some (H key keyLen data), st)
/-- A library that computes a function, and fails from a given call on. -/
def failingFrom (count : Nat) (H : Bytes → Int → Bytes → Digest) : Hmac Nat := fun key keyLen data calls =>
  (if calls < count then some (H key keyLen data) else none, calls + 1)

theorem pureHmac_computes (H : Bytes → Int → Bytes → Digest) : Computes (pureHmac H) H := fun _ _ _ _ => rfl

theorem exchange_failingFrom (H : Bytes → Int → Bytes → Digest) {count calls : Nat} (before : calls + 2 ≤ count)
    (ikm salt info : Bytes) :
    exchange (failingFrom count H) ikm salt info calls = (some (blockOf H ikm salt info), calls + 2) := by
  have first : calls < count := by omega
  have second : calls + 1 < count := by omega
  simp only [exchange, failingFrom, first, second, if_true, blockOf]
theorem exchanges_failingFrom (H : Bytes → Int → Bytes → Digest) {count calls : Nat} (before : calls + 4 ≤ count)
    (userKey nonce salt info : Bytes) : exchanges (failingFrom count H) userKey nonce salt info calls =
      (some (blockOf H userKey (buildSalt nonce salt) (buildInfo info "-state-init"),
        blockOf H userKey (buildSalt nonce salt) (buildInfo info "-param-init")), calls + 4) := by
  have first := exchange_failingFrom H (show calls + 2 ≤ count by omega) userKey (buildSalt nonce salt)
  have second := exchange_failingFrom H (show calls + 2 + 2 ≤ count by omega) userKey (buildSalt nonce salt)
  simp only [exchanges, first, second]
theorem exchanges_failed (H : Bytes → Int → Bytes → Digest) {count calls : Nat} (after : count ≤ calls)
    (userKey nonce salt info : Bytes) :
    exchanges (failingFrom count H) userKey nonce salt info calls = (none, calls + 1) := by
  have failed : ¬ calls < count := by omega
  simp only [exchanges, exchange, failingFrom, failed, if_false]

/-- The digest that a hexadecimal numeral spells. -/
def digestOf (hex : BitVec 256) : Digest := ⟨(toBytes 32 hex).reverse, by simp⟩
/-- HMAC-SHA3-256 on the calls of the reference vector with the single-byte key `42` and twelve
    nonce bytes `01`. -/
def referenceHmac (key : Bytes) (_ : Int) (data : Bytes) : Digest :=
  let prk := digestOf 0xc74fcaaf83df46a81983fc9cd438cfe4139339ac14076d1174377cc19f961981
  if key = prk.val ∧ data = literal "EAHCM-v1-state-init" ++ [1] then
    digestOf 0x5855acba5e68d1298909ec8bcf2b72ac5534b87c2c966a62695e3bbcade87a28
  else if key = prk.val ∧ data = literal "EAHCM-v1-param-init" ++ [1] then
    digestOf 0xbbef75a79c1d30ff6d559b8726a603871e4cbf25269d094e9ecb09a8b9e4ee19
  else prk

example : derivedState referenceHmac [0x42] (List.replicate 12 1) [] [] =
    ⟨3228528662, 2830598970, 3581592335, 140920517, 4208137029, 3879527310, 4117055467, 4258341082, 256⟩ := by
  decide +kernel

end Eahcm.KeySchedule
