import Mathlib.Data.List.Nodup
import Eahcm.Expansion

/-!
The calls of the crypto library that a derivation makes. Whatever the library answers, they are the
first of four calls that the key material and the answers fix, all four when it succeeds
(`derivation_calls`); with a functional HMAC they tell all key material apart that the derivation
does not treat as the same (`calls_eq_iff`), and the calls for the state are never those for the
parameters. Mixing asks nothing more (`mixing_exact`), and HKDF at every length is that of RFC 5869,
one call for the extraction and one for each block (`hkdf_rfc`).
-/
namespace Eahcm.Transcripts
open Eahcm.Types Eahcm.States Eahcm.KeySchedule Eahcm.Expansion
variable {σ : Type}

/-- A call of the crypto library. -/
structure Query where
  key : Bytes
  keyLen : Int
  data : Bytes
deriving DecidableEq

/-- A crypto library with a record of its calls. -/
def logged (hmac : Hmac σ) : Hmac (σ × List Query) := fun key keyLen data p =>
  ((hmac key keyLen data p.1).1, (hmac key keyLen data p.1).2, p.2 ++ [⟨key, keyLen, data⟩])

theorem logged_run {hmac : Hmac σ} {key data : Bytes} {keyLen : Int} {st st' : σ} {answer : Option Digest}
    (answered : hmac key keyLen data st = (answer, st')) (log : List Query) :
    logged hmac key keyLen data (st, log) = (answer, st', log ++ [⟨key, keyLen, data⟩]) := by
  simp only [logged, answered]

/-- The call of HKDF-Extract. -/
def extractQuery (ikm salt : Bytes) : Query := ⟨extractKey salt, castInt (extractKey salt).length, ikm⟩
/-- The call of HKDF-Expand for its first block. -/
def expandQuery (prk : Digest) (info : Bytes) : Query := ⟨prk.val, 32, info ++ [1]⟩
/-- The four calls of a derivation, given what the two extractions return. -/
def script (userKey nonce salt info : Bytes) (statePrk paramPrk : Digest) : List Query :=
  [extractQuery userKey (buildSalt nonce salt), expandQuery statePrk (buildInfo info "-state-init"),
    extractQuery userKey (buildSalt nonce salt), expandQuery paramPrk (buildInfo info "-param-init")]

/-- What the library answers to a call. -/
def answer (hmac : Hmac σ) (q : Query) (st : σ) : Option Digest := (hmac q.key q.keyLen q.data st).1

/-- An HKDF of one block makes one call, and a second one when the first is answered. -/
theorem exchange_logged (hmac : Hmac σ) (ikm salt info : Bytes) (st : σ) (log : List Query) : ∃ prk n, 1 ≤ n ∧
    (2 ≤ n → answer hmac (extractQuery ikm salt) st = some prk) ∧
      ((exchange hmac ikm salt info st).1.isSome = true → 2 ≤ n) ∧
        exchange (logged hmac) ikm salt info (st, log) = ((exchange hmac ikm salt info st).1,
          (exchange hmac ikm salt info st).2, log ++ [extractQuery ikm salt, expandQuery prk info].take n) := by
  rcases first : hmac (extractKey salt) (castInt (extractKey salt).length) ikm st with ⟨_ | prk, st'⟩
  · refine ⟨⟨List.replicate 32 0, rfl⟩, 1, Nat.le_refl 1, fun impossible => absurd impossible (by decide), ?_, ?_⟩
    · simp only [exchange, first]
      rintro ⟨⟩
    · simp only [exchange, first, logged_run first log]
      rfl
  · refine ⟨prk, 2, by decide, fun _ => by simp only [answer, extractQuery, first],
      fun _ => Nat.le_refl 2, ?_⟩
    rcases second : hmac prk.val 32 (info ++ [1]) st' with ⟨given, st''⟩
    simp only [exchange, first, logged_run first log, second, logged_run second]
    rw [List.append_assoc]
    rfl

/-- So many calls of the script were made, and the answers to the extractions among them are those
    that the script is about. -/
structure Made (hmac : Hmac σ) (userKey nonce salt info : Bytes) (st : σ) (statePrk paramPrk : Digest) (n : Nat) :
    Prop where
  some : 1 ≤ n
  all : (exchanges hmac userKey nonce salt info st).1.isSome = true → 4 ≤ n
  state : 2 ≤ n → answer hmac (extractQuery userKey (buildSalt nonce salt)) st = .some statePrk
  param : 4 ≤ n → answer hmac (extractQuery userKey (buildSalt nonce salt))
    (exchange hmac userKey (buildSalt nonce salt) (buildInfo info "-state-init") st).2 = .some paramPrk

theorem exchanges_logged (hmac : Hmac σ) (userKey nonce salt info : Bytes) (st : σ) (log : List Query) :
    ∃ statePrk paramPrk n, Made hmac userKey nonce salt info st statePrk paramPrk n ∧
      exchanges (logged hmac) userKey nonce salt info (st, log) = ((exchanges hmac userKey nonce salt info st).1,
        (exchanges hmac userKey nonce salt info st).2, log ++ (script userKey nonce salt info statePrk paramPrk).take n) := by
  obtain ⟨statePrk, n, positive, given, both, first⟩ :=
    exchange_logged hmac userKey (buildSalt nonce salt) (buildInfo info "-state-init") st log
  rcases answered : exchange hmac userKey (buildSalt nonce salt) (buildInfo info "-state-init") st with ⟨_ | block, st'⟩
  · rw [answered] at first
    refine ⟨statePrk, statePrk, min n 2, ⟨by omega, ?_, fun two => given (by omega), fun four => by omega⟩, ?_⟩
    · simp only [exchanges, answered]
      rintro ⟨⟩
    · simp only [exchanges, answered, first]
      rw [script, ← List.take_take]
      rfl
  · rw [answered] at first both
    obtain ⟨paramPrk, k, positive', given', both', second⟩ := exchange_logged hmac userKey (buildSalt nonce salt)
      (buildInfo info "-param-init") st' (log ++ [extractQuery userKey (buildSalt nonce salt),
        expandQuery statePrk (buildInfo info "-state-init")].take n)
    have whole : 2 ≤ n := both rfl
    have log' : [extractQuery userKey (buildSalt nonce salt), expandQuery statePrk (buildInfo info "-state-init")].take n =
        [extractQuery userKey (buildSalt nonce salt), expandQuery statePrk (buildInfo info "-state-init")] :=
      List.take_of_length_le whole
    have param : 4 ≤ k + 2 → answer hmac (extractQuery userKey (buildSalt nonce salt))
        (exchange hmac userKey (buildSalt nonce salt) (buildInfo info "-state-init") st).2 = .some paramPrk := by
      intro four
      rw [answered]
      exact given' (by omega)
    rcases answered' : exchange hmac userKey (buildSalt nonce salt) (buildInfo info "-param-init") st' with ⟨_ | block', st''⟩
    · rw [answered', log'] at second
      refine ⟨statePrk, paramPrk, k + 2, ⟨by omega, ?_, fun _ => given whole, param⟩, ?_⟩
      · simp only [exchanges, answered, answered']
        rintro ⟨⟩
      · simp only [exchanges, answered, answered', first, log', second, List.append_assoc]
        rfl
    · rw [answered', log'] at second
      rw [answered'] at both'
      refine ⟨statePrk, paramPrk, k + 2, ⟨by omega, fun _ => ?_, fun _ => given whole, param⟩, ?_⟩
      · have := both' rfl
        omega
      · simp only [exchanges, answered, answered', first, log', second, List.append_assoc]
        rfl

/-- A derivation with a key makes a first part of the script, and a record of the calls changes
    nothing else. -/
theorem deriveState_logged (hmac : Hmac σ) {userKey : Bytes} (nonce salt info : Bytes) (key : userKey ≠ []) (st : σ)
    (log : List Query) : ∃ statePrk paramPrk n, Made hmac userKey nonce salt info st statePrk paramPrk n ∧
      deriveState (logged hmac) userKey nonce salt info (st, log) = ((deriveState hmac userKey nonce salt info st).1,
        (deriveState hmac userKey nonce salt info st).2,
        log ++ (script userKey nonce salt info statePrk paramPrk).take n) ∧
      ∀ s, (deriveState hmac userKey nonce salt info st).1 = .ok s → 4 ≤ n := by
  obtain ⟨statePrk, paramPrk, n, made, calls⟩ := exchanges_logged hmac userKey nonce salt info st log
  refine ⟨statePrk, paramPrk, n, made, ?_, fun s derived => made.all ?_⟩
  · rw [deriveState_run (logged hmac) userKey nonce salt info key, deriveState_run hmac userKey nonce salt info key, calls]
    rcases exchanges hmac userKey nonce salt info st with ⟨_ | ⟨stateBlock, paramBlock⟩, st'⟩
    · rfl
    · rfl
  · rw [deriveState_run hmac userKey nonce salt info key] at derived
    rcases answered : exchanges hmac userKey nonce salt info st with ⟨_ | blocks, st'⟩
    · rw [answered] at derived
      cases derived
    · rfl

/-- Whatever a crypto library answers, and whatever state it is in, a derivation with a key makes a
    first part of one script of four calls, all four when it returns a state; a record of the calls
    changes nothing, and without a key there is none. -/
theorem derivation_calls (hmac : Hmac σ) (userKey nonce salt info : Bytes) (st : σ) (log : List Query) :
    (userKey = [] → deriveState (logged hmac) userKey nonce salt info (st, log) =
        (.error (.keyError "user_key must not be empty"), st, log)) ∧
      (userKey ≠ [] → ∃ statePrk paramPrk n, Made hmac userKey nonce salt info st statePrk paramPrk n ∧
        deriveState (logged hmac) userKey nonce salt info (st, log) = ((deriveState hmac userKey nonce salt info st).1,
          (deriveState hmac userKey nonce salt info st).2,
          log ++ (script userKey nonce salt info statePrk paramPrk).take n) ∧
        ∀ s, (deriveState hmac userKey nonce salt info st).1 = .ok s → 4 ≤ n) := by
  constructor
  · rintro rfl
    rfl
  · exact fun key => deriveState_logged hmac nonce salt info key st log

/-! ## What the calls tell apart -/

/-- The calls that a derivation makes. -/
def calls (hmac : Hmac σ) (userKey nonce salt info : Bytes) (st : σ) : List Query :=
  (deriveState (logged hmac) userKey nonce salt info (st, [])).2.2
/-- Two words that the guard against absorbing words does not tell apart. -/
def Guarded (a b : Word32) : Prop :=
  a = b ∨ (a = 0 ∧ b = sentinelZero ∨ a = sentinelZero ∧ b = 0) ∨
    (a = 0xFFFFFFFF ∧ b = sentinelOnes ∨ a = sentinelOnes ∧ b = 0xFFFFFFFF)

theorem guardAbsorbing_eq_iff (a b : Word32) : guardAbsorbing a = guardAbsorbing b ↔ Guarded a b := by
  have zero : sentinelZero ≠ 0x00000000 ∧ sentinelZero ≠ 0xFFFFFFFF ∧ sentinelZero ≠ sentinelOnes := by decide
  have ones : sentinelOnes ≠ 0x00000000 ∧ sentinelOnes ≠ 0xFFFFFFFF := by decide
  rw [guardAbsorbing, guardAbsorbing, Guarded]
  split <;> split <;> grind

theorem guardAbsorbing_kept (v : Word32) : guardAbsorbing v ≠ 0 ∧ guardAbsorbing v ≠ 0xFFFFFFFF := by
  rw [guardAbsorbing]
  split
  · decide
  · split
    · decide
    · exact ⟨by assumption, by assumption⟩

/-- The state that the steps after a mixing start from. -/
def mixed (s : State) (hash : Bytes) : State := { s with
  x := guardAbsorbing (s.x ^^^ wordOf hash 0)
  y := guardAbsorbing (s.y ^^^ wordOf hash 4)
  z := guardAbsorbing (s.z ^^^ wordOf hash 8)
  w := guardAbsorbing (s.w ^^^ wordOf hash 12) }

/-- Mixing refuses a short hash before anything else, an empty key among the rest. Otherwise it asks the
    crypto library what the derivation alone asks, fails when that fails, and ends 64 steps after a
    state with the same parameters and counter and with no absorbing word. Two hashes start these
    steps from one state exactly when the guard does not tell their first four words apart once
    these are in the state. -/
theorem mixing_exact (hmac : Hmac σ) (userKey nonce salt info : Bytes) (st : σ) :
    (∀ hash, hash.length < 16 → deriveStateWithMixing hmac userKey nonce hash salt info st =
        (.error (.keyError "plaintext_hash must be at least 16 bytes"), st)) ∧
      (∀ hash log, 16 ≤ hash.length → deriveStateWithMixing (logged hmac) userKey nonce hash salt info (st, log) =
        ((deriveState hmac userKey nonce salt info st).1.map fun s => step^[64] (mixed s hash),
          (deriveState (logged hmac) userKey nonce salt info (st, log)).2)) ∧
      (∀ s hash, (mixed s hash).counter = s.counter ∧ (mixed s hash).alpha = s.alpha ∧ (mixed s hash).gamma = s.gamma ∧
        (mixed s hash).mu = s.mu ∧ (mixed s hash).sigma = s.sigma ∧
          ∀ word ∈ [(mixed s hash).x, (mixed s hash).y, (mixed s hash).z, (mixed s hash).w],
            word ≠ 0 ∧ word ≠ 0xFFFFFFFF) ∧
      ∀ s hash hash', mixed s hash = mixed s hash' ↔
        Guarded (s.x ^^^ wordOf hash 0) (s.x ^^^ wordOf hash' 0) ∧ Guarded (s.y ^^^ wordOf hash 4) (s.y ^^^ wordOf hash' 4) ∧
          Guarded (s.z ^^^ wordOf hash 8) (s.z ^^^ wordOf hash' 8) ∧
            Guarded (s.w ^^^ wordOf hash 12) (s.w ^^^ wordOf hash' 12) := by
  refine ⟨fun hash short => ?_, fun hash log long => ?_, fun s hash => ⟨rfl, rfl, rfl, rfl, rfl, ?_⟩, fun s hash hash' => ?_⟩
  · unfold deriveStateWithMixing
    simp only [short, if_true]
    rfl
  · rw [deriveStateWithMixing_run _ _ _ _ _ _ long]
    have plain : (deriveState (logged hmac) userKey nonce salt info (st, log)).1 =
        (deriveState hmac userKey nonce salt info st).1 := by
      by_cases key : userKey = []
      · subst key
        rfl
      · obtain ⟨_, _, _, _, calls, _⟩ := deriveState_logged hmac nonce salt info key st log
        rw [calls]
    rw [← plain]
    rcases deriveState (logged hmac) userKey nonce salt info (st, log) with ⟨e | s, p⟩
    · rfl
    · rfl
  · simp only [List.mem_cons, List.not_mem_nil, or_false, forall_eq_or_imp, forall_eq]
    exact ⟨guardAbsorbing_kept _, guardAbsorbing_kept _, guardAbsorbing_kept _, guardAbsorbing_kept _⟩
  · simp only [mixed, State.mk.injEq, guardAbsorbing_eq_iff, and_true]

/-! ## HKDF at every length -/

/-- The call of HKDF-Expand for block `i + 1`. -/
def blockQuery (H : Bytes → Int → Bytes → Digest) (prk : Digest) (info : Bytes) (i : Nat) : Query :=
  ⟨prk.val, 32, block H prk info i ++ info ++ [BitVec.ofNat 8 (i + 1)]⟩

theorem sha3256Hmac_logged {hmac : Hmac σ} {H : Bytes → Int → Bytes → Digest} (computes : Computes hmac H)
    (key data : Bytes) (st : σ) (log : List Query) : ∃ st', sha3256Hmac (logged hmac) key data (st, log) =
      (.ok (H key (castInt key.length) data), st', log ++ [⟨key, castInt key.length, data⟩]) := by
  obtain ⟨st', answered⟩ := computes.answer key (castInt key.length) data st
  exact ⟨st', sha3256Hmac_some (logged_run answered log)⟩

theorem expandBlocks_logged {hmac : Hmac σ} {H : Bytes → Int → Bytes → Digest} (computes : Computes hmac H)
    (prk : Digest) (info : Bytes) (left made : Nat) (st : σ) (log : List Query) :
    ∃ st', expandBlocks (logged hmac) prk.val info left (made + 1) (block H prk info made) (blocks H prk info made) (st, log) =
      (.ok (blocks H prk info (made + left)), st', log ++ (List.range' made left).map (blockQuery H prk info)) := by
  induction left generalizing made st log with
  | zero => exact ⟨st, by rw [List.range'_zero, List.map_nil, List.append_nil]; rfl⟩
  | succ left ih =>
    have key : castInt prk.val.length = 32 := by rw [prk.property]; decide
    obtain ⟨st', ran⟩ := sha3256Hmac_logged computes prk.val (block H prk info made ++ info ++ [BitVec.ofNat 8 (made + 1)])
      st log
    rw [key] at ran
    obtain ⟨st'', rest⟩ := ih (made + 1) st' (log ++ [blockQuery H prk info made])
    refine ⟨st'', (bind_ok ran _).trans ?_⟩
    rw [List.append_assoc] at rest
    rw [List.range'_succ, List.map_cons, show made + (left + 1) = made + 1 + left by omega]
    refine Eq.trans ?_ rest
    rw [blocks_succ]
    rfl

theorem blockQuery_inj {H : Bytes → Int → Bytes → Digest} {prk : Digest} {info : Bytes} {i j : Nat} (left : i < 255)
    (right : j < 255) (same : blockQuery H prk info i = blockQuery H prk info j) : i = j := by
  have number := (List.append_inj' (Query.mk.inj same).2.2 rfl).2
  have value := congrArg BitVec.toNat (List.cons.inj number).1
  rw [BitVec.toNat_ofNat, BitVec.toNat_ofNat] at value
  omega

/-- HKDF with a functional HMAC. Up to 255 blocks it returns the front of the blocks of RFC 5869 for the
    extracted key, after one call for the extraction and one for each block, no two of them the
    same; a longer request is refused after the extraction. -/
theorem hkdf_rfc {hmac : Hmac σ} {H : Bytes → Int → Bytes → Digest} (computes : Computes hmac H) (ikm salt info : Bytes)
    (length : Nat) (st : σ) (log : List Query) : ∃ prk st',
      prk = H (extractKey salt) (castInt (extractKey salt).length) ikm ∧
      (length ≤ 255 * 32 → hkdf (logged hmac) ikm salt info length (st, log) =
        (.ok ((blocks H prk info ((length + 31) / 32)).take length), st',
          log ++ extractQuery ikm salt :: (List.range ((length + 31) / 32)).map (blockQuery H prk info)) ∧
        ((List.range ((length + 31) / 32)).map (blockQuery H prk info)).Nodup) ∧
      (255 * 32 < length → hkdf (logged hmac) ikm salt info length (st, log) =
        (.error (.invalidArgument "HKDF-Expand: requested length exceeds maximum"), st', log ++ [extractQuery ikm salt])) := by
  obtain ⟨st', extracted⟩ := sha3256Hmac_logged computes (extractKey salt) ikm st log
  have begins (prk : Digest) (same : prk = H (extractKey salt) (castInt (extractKey salt).length) ikm) :
      hkdf (logged hmac) ikm salt info length (st, log) =
        hkdfExpand (logged hmac) prk.val info length (st', log ++ [extractQuery ikm salt]) := by
    rw [hkdf, hkdfExtract_eq, bind_ok extracted, same]
    rfl
  by_cases allowed : length ≤ 255 * 32
  · obtain ⟨st'', ran⟩ := expandBlocks_logged computes (H (extractKey salt) (castInt (extractKey salt).length) ikm) info
      ((length + 31) / 32) 0 st' (log ++ [extractQuery ikm salt])
    rw [Nat.zero_add, Nat.zero_add, List.append_assoc, ← List.range_eq_range'] at ran
    refine ⟨_, st'', rfl, fun _ => ⟨?_, ?_⟩, fun long => absurd allowed (Nat.not_le.mpr long)⟩
    · have short : ¬ length > 32 * 255 := by omega
      have enough : length - 32 * ((length + 31) / 32) = 0 := by omega
      rw [begins _ rfl]
      unfold hkdfExpand
      simp only [short, if_false]
      refine (bind_ok ran _).trans ?_
      simp [resize, enough]
    · refine List.Nodup.map_on (fun i inside j inside' same => ?_) List.nodup_range
      have below := List.mem_range.mp inside
      have below' := List.mem_range.mp inside'
      exact blockQuery_inj (by omega) (by omega) same
  · refine ⟨_, st', rfl, fun short => absurd short allowed, fun long => ?_⟩
    rw [begins _ rfl]
    exact hkdfExpand_long (logged hmac) _ info long _

/-- The state block of the reference vector, after two calls. -/
theorem hkdf_rfc_reference : ∃ log,
    hkdf (logged (pureHmac referenceHmac)) [0x42] (List.replicate 12 1) (buildInfo [] "-state-init") 32 ((), []) =
        (.ok (digestOf 0x5855acba5e68d1298909ec8bcf2b72ac5534b87c2c966a62695e3bbcade87a28).val, (), log) ∧
      log.length = 2 := by
  obtain ⟨prk, ⟨⟩, extracted, answered, _⟩ := hkdf_rfc (pureHmac_computes referenceHmac) [0x42] (List.replicate 12 1)
    (buildInfo [] "-state-init") 32 () []
  obtain ⟨ran, _⟩ := answered (by decide)
  have block : (blocks referenceHmac prk (buildInfo [] "-state-init") ((32 + 31) / 32)).take 32 =
      (digestOf 0x5855acba5e68d1298909ec8bcf2b72ac5534b87c2c966a62695e3bbcade87a28).val := by
    subst extracted
    decide +kernel
  rw [block] at ran
  exact ⟨_, ran, by simp⟩

end Eahcm.Transcripts
