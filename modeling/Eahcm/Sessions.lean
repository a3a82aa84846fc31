import Eahcm.Streams

/-!
Whole lives of ciphers: every sequence of calls, imports of foreign states and seedings that the
crypto library may fail. Seeding forgets all history (`seeding_forgets`), but a seeding that
fails after its key was accepted leaves the cipher wiped (`reseed_atomic_iff`); key-derived
states stay in the chaotic regime (`regime_invariant`), imported ones reach it with the first
drift (`import_exact`).
-/
namespace Eahcm.Sessions
open Eahcm.Types Eahcm.States Eahcm.KeySchedule Eahcm.Binary Eahcm.Json Eahcm.Machines Eahcm.Ciphers Eahcm.Streams
variable {σ : Type}

/-- The ciphers that any calls lead to, seedings that fail and imports among them. A cipher
    moved to is the one moved from as it was before. -/
inductive Reachable (hmac : Hmac σ) : Cipher → Prop
  | constructed {key nonce info : Bytes} {st st' : σ} {c : Cipher} :
      construct hmac key nonce info st = (.ok c, st') → Reachable hmac c
  | served {c : Cipher} (call : Call) : Reachable hmac c → Reachable hmac (serve call c).2
  | reseeded {c : Cipher} (key nonce info : Bytes) (st : σ) : Reachable hmac c →
      Reachable hmac (reseed hmac key nonce info c st).2.1
  | movedFrom {c : Cipher} : Reachable hmac c → Reachable hmac (movedFrom c)

/-- What an import does: it installs a decoded state, or throws its own exception and does
    nothing else. -/
theorem imported_cases (c : Cipher) (decoded : Except Fault State) (declared : Declared decoded) :
    (∃ s, decoded = .ok s ∧ imported c (do return install c (← decoded)) = (.done, install c s)) ∨
      ∃ what, decoded = .error (.serializationError what) ∧
        imported c (do return install c (← decoded)) = (.thrown (.serializationError what), c) := by
  cases decoded with
  | ok s => exact Or.inl ⟨s, rfl, rfl⟩
  | error e =>
    obtain ⟨what, rfl⟩ := declared e rfl
    exact Or.inr ⟨what, rfl, rfl⟩
theorem deserializeBinary_declared (b : Blob) : Declared (deserializeBinary b) := fun _ => deserializeBinary_error

/-- What a call does to a cipher: it draws, resets, installs an imported state, or nothing. -/
theorem serve_cases (call : Call) (c : Cipher) :
    (∃ d, call = .draw d ∧ (serve call c).2 = (draw d c).2) ∨ (serve call c).2 = reset c ∨
      (∃ s, (serve call c).2 = install c s) ∨ (serve call c).2 = c := by
  cases call with
  | draw d => exact Or.inl ⟨d, rfl, rfl⟩
  | reset => exact Or.inr (Or.inl rfl)
  | exportState => exact Or.inr (Or.inr (Or.inr rfl))
  | exportStateJson np pretty => exact Or.inr (Or.inr (Or.inr rfl))
  | importState data =>
    rcases imported_cases c (deserializeBinary data) (deserializeBinary_declared data) with ⟨s, _, ran⟩ | ⟨what, _, ran⟩
    · exact Or.inr (Or.inr (Or.inl ⟨s, congrArg Prod.snd ran⟩))
    · exact Or.inr (Or.inr (Or.inr (congrArg Prod.snd ran)))
  | importStateJson json =>
    rcases imported_cases c (deserializeJson json) (deserializeJson_declared json) with ⟨s, _, ran⟩ | ⟨what, _, ran⟩
    · exact Or.inr (Or.inr (Or.inl ⟨s, congrArg Prod.snd ran⟩))
    · exact Or.inr (Or.inr (Or.inr (congrArg Prod.snd ran)))

/-- What a seeding does to a cipher: it starts the stream of a derived state, refuses an empty
    key, or is left wiped by a call of the crypto library that fails. -/
theorem reseed_cases (hmac : Hmac σ) (key nonce info : Bytes) (c : Cipher) (st : σ) :
    (key = [] ∧ reseed hmac key nonce info c st = (.error keyEmpty, c, st)) ∨
      (∃ stateBlock paramBlock st', exchanges hmac key nonce [] info st = (some (stateBlock, paramBlock), st') ∧
        key ≠ [] ∧ reseed hmac key nonce info c st =
          (.ok (), seededWith (stateOf (paramsOf stateBlock paramBlock)) key nonce info, st')) ∨
      ∃ st', exchanges hmac key nonce [] info st = (none, st') ∧ key ≠ [] ∧
        reseed hmac key nonce info c st = (.error hmacFailed, reseedWiped c key nonce info, st') := by
  by_cases present : key = []
  · subst present
    exact Or.inl ⟨rfl, rfl⟩
  · right
    rw [reseed_run hmac nonce info present, deriveState_run hmac key nonce [] info present]
    rcases exchanges hmac key nonce [] info st with ⟨_ | ⟨stateBlock, paramBlock⟩, st'⟩
    · exact Or.inr ⟨st', rfl, present, rfl⟩
    · exact Or.inl ⟨stateBlock, paramBlock, st', rfl, present, rfl⟩

theorem draw_bound (d : Draw) {c : Cipher} (bound : c.bufferPos ≤ 8) : (draw d c).2.bufferPos ≤ 8 :=
  (draw_simulates d c (tap c) ⟨rfl, bound⟩).2.bound
theorem serve_bound (call : Call) {c : Cipher} (bound : c.bufferPos ≤ 8) : (serve call c).2.bufferPos ≤ 8 := by
  rcases serve_cases call c with ⟨d, _, drawn⟩ | reset | ⟨s, installed⟩ | same
  · rw [drawn]
    exact draw_bound d bound
  · rw [reset]
    exact Nat.le_refl 8
  · rw [installed]
    exact Nat.le_refl 8
  · rw [same]
    exact bound

/-- The buffer position of a cipher never leaves its range. -/
theorem Reachable.bound {hmac : Hmac σ} {c : Cipher} (reachable : Reachable hmac c) : c.bufferPos ≤ 8 := by
  induction reachable with
  | constructed ran =>
    obtain ⟨_, s, _, rfl⟩ := construct_ok ran
    exact Nat.le_refl 8
  | served call _ ih => exact serve_bound call ih
  | @reseeded c key nonce info st _ ih =>
    rcases reseed_cases hmac key nonce info c st with ⟨_, ran⟩ | ⟨_, _, _, _, _, ran⟩ | ⟨_, _, _, ran⟩
    · rw [ran]
      exact ih
    · rw [ran]
      exact Nat.le_refl 8
    · rw [ran]
      exact ih
  | movedFrom => exact Nat.le_refl 8

/-! ## Forgetting history -/

/-- Ciphers last seeded with a key, a nonce and a context, by construction or by a seeding of any
    cipher, and not moved from since; what was served or refused in between may be anything. -/
inductive Seeded (hmac : Hmac σ) : Bytes → Bytes → Bytes → Cipher → Prop
  | constructed {key nonce info : Bytes} {st st' : σ} {c : Cipher} :
      construct hmac key nonce info st = (.ok c, st') → Seeded hmac key nonce info c
  | reseeded {key nonce info : Bytes} {st st' : σ} {c c' : Cipher} :
      reseed hmac key nonce info c st = (.ok (), c', st') → Seeded hmac key nonce info c'
  | served {key nonce info : Bytes} {c : Cipher} (call : Call) : Seeded hmac key nonce info c →
      Seeded hmac key nonce info (serve call c).2
  | refused {key nonce info : Bytes} {c : Cipher} (nonce' info' : Bytes) (st : σ) : Seeded hmac key nonce info c →
      Seeded hmac key nonce info (reseed hmac [] nonce' info' c st).2.1

/-- What every call keeps of a seeding. -/
structure Origin (H : Bytes → Int → Bytes → Digest) (key nonce info : Bytes) (c : Cipher) : Prop where
  present : key ≠ []
  bound : c.bufferPos ≤ 8
  initialState : c.initialState = derivedState H key nonce [] info
  keyMaterial : c.keyMaterial = key
  nonceMaterial : c.nonceMaterial = nonce
  infoMaterial : c.infoMaterial = info

theorem Origin.served {H : Bytes → Int → Bytes → Digest} {key nonce info : Bytes} {c c' : Cipher}
    (origin : Origin H key nonce info c) (bound : c'.bufferPos ≤ 8) (seed : SameSeed c c') : Origin H key nonce info c' :=
  ⟨origin.present, bound, seed.initialState.trans origin.initialState, seed.keyMaterial.trans origin.keyMaterial,
    seed.nonceMaterial.trans origin.nonceMaterial, seed.infoMaterial.trans origin.infoMaterial⟩

theorem serve_seed (call : Call) {c : Cipher} (bound : c.bufferPos ≤ 8) : SameSeed c (serve call c).2 := by
  rcases serve_cases call c with ⟨d, _, drawn⟩ | reset | ⟨s, installed⟩ | same
  · rw [drawn]
    exact draw_seed d bound
  · rw [reset]
    exact ⟨rfl, rfl, rfl, rfl⟩
  · rw [installed]
    exact ⟨rfl, rfl, rfl, rfl⟩
  · rw [same]
    exact ⟨rfl, rfl, rfl, rfl⟩

theorem Seeded.origin {hmac : Hmac σ} {H : Bytes → Int → Bytes → Digest} (computes : Computes hmac H)
    {key nonce info : Bytes} {c : Cipher} (seeded : Seeded hmac key nonce info c) : Origin H key nonce info c := by
  have start {key nonce info : Bytes} {st st' : σ} {s : State} (present : key ≠ [])
      (derived : deriveState hmac key nonce [] info st = (.ok s, st')) :
      Origin H key nonce info (seededWith s key nonce info) := by
    obtain ⟨_, computed⟩ := deriveState_computes computes key nonce [] info present st
    rw [derived] at computed
    exact ⟨present, Nat.le_refl 8, Except.ok.inj (congrArg Prod.fst computed), rfl, rfl, rfl⟩
  induction seeded with
  | constructed ran =>
    obtain ⟨present, s, derived, rfl⟩ := construct_ok ran
    exact start present derived
  | reseeded ran =>
    obtain ⟨present, s, derived, rfl⟩ := reseed_ok ran
    exact start present derived
  | served call _ ih => exact ih.served (serve_bound call ih.bound) (serve_seed call ih.bound)
  | refused nonce' info' st _ ih => exact ih

/-- A reset puts a cipher back to the start of the stream it was last seeded with. -/
theorem Origin.reset {H : Bytes → Int → Bytes → Digest} {key nonce info : Bytes} {c : Cipher}
    (origin : Origin H key nonce info c) :
    Ciphers.reset c = seededWith (derivedState H key nonce [] info) key nonce info := by
  have restart : Ciphers.reset c = seededWith c.initialState c.keyMaterial c.nonceMaterial c.infoMaterial := rfl
  rw [restart, origin.initialState, origin.keyMaterial, origin.nonceMaterial, origin.infoMaterial]

theorem reseed_computes {hmac : Hmac σ} {H : Bytes → Int → Bytes → Digest} (computes : Computes hmac H)
    {key : Bytes} (nonce info : Bytes) (present : key ≠ []) (c : Cipher) (st : σ) :
    ∃ st', reseed hmac key nonce info c st =
      (.ok (), seededWith (derivedState H key nonce [] info) key nonce info, st') := by
  obtain ⟨st', computed⟩ := deriveState_computes computes key nonce [] info present st
  exact ⟨st', by rw [reseed_run hmac nonce info present, computed]⟩

/-- After a reset, and after a successful seeding, no calls tell a cipher from a fresh one,
    whatever happened to it before. -/
theorem seeding_forgets {hmac : Hmac σ} {H : Bytes → Int → Bytes → Digest} (computes : Computes hmac H)
    {key nonce info : Bytes} {c : Cipher} (seeded : Seeded hmac key nonce info c) :
    (∀ st, ∃ fresh st', construct hmac key nonce info st = (.ok fresh, st') ∧
        Indistinguishable serve (reset c) fresh) ∧
      ∀ key' nonce' info' st st', key' ≠ [] → ∃ fresh again stFresh stAgain,
        construct hmac key' nonce' info' st = (.ok fresh, stFresh) ∧
          reseed hmac key' nonce' info' c st' = (.ok (), again, stAgain) ∧ Indistinguishable serve again fresh := by
  have origin := seeded.origin computes
  constructor
  · intro st
    obtain ⟨st', ran⟩ := construct_computes computes nonce info origin.present st
    exact ⟨_, st', ran, by rw [origin.reset]; exact fun _ => rfl⟩
  · intro key' nonce' info' st st' present
    obtain ⟨stFresh, ran⟩ := construct_computes computes nonce' info' present st
    obtain ⟨stAgain, again⟩ := reseed_computes computes nonce' info' present c st'
    exact ⟨_, _, stFresh, stAgain, ran, again, fun _ => rfl⟩

/-- A cipher that has delivered three bytes of a word, reset. -/
theorem seeding_forgets_reference :
    ∃ c fresh, Seeded (pureHmac referenceHmac) [0x42] (List.replicate 12 1) [] (serve (.draw (.generate 3)) c).2 ∧
      construct (pureHmac referenceHmac) [0x42] (List.replicate 12 1) [] () = (.ok fresh, ()) ∧
        Indistinguishable serve (reset (serve (.draw (.generate 3)) c).2) fresh := by
  have computes := pureHmac_computes referenceHmac
  obtain ⟨⟨⟩, ran⟩ := construct_computes computes (List.replicate 12 1) [] (show [0x42] ≠ [] by decide) ()
  have seeded := Seeded.served (.draw (.generate 3)) (.constructed ran)
  obtain ⟨fresh, ⟨⟩, built, same⟩ := (seeding_forgets computes seeded).1 ()
  exact ⟨_, fresh, seeded, built, same⟩

/-- A seeding that throws leaves the cipher as it was. -/
def ReseedAtomic (hmac : Hmac σ) (key nonce info : Bytes) (c : Cipher) (st : σ) : Prop :=
  ∀ e c' st', reseed hmac key nonce info c st = (.error e, c', st') → c' = c
/-- The cipher is wiped and has the material already, as a seeding that failed leaves it. -/
def AlreadyWiped (c : Cipher) (key nonce info : Bytes) : Prop :=
  c.state = {} ∧ c.initialState = {} ∧ c.buffer = zeroBuffer ∧ c.keyMaterial = key ∧ c.nonceMaterial = nonce ∧
    c.infoMaterial = info

theorem alreadyWiped_iff (c : Cipher) (key nonce info : Bytes) :
    reseedWiped c key nonce info = c ↔ AlreadyWiped c key nonce info := by
  constructor
  · intro same
    rw [← same]
    exact ⟨rfl, rfl, rfl, rfl, rfl, rfl⟩
  · rintro ⟨state, initialState, buffer, rfl, rfl, rfl⟩
    obtain ⟨_, _, _, _, _, _, _⟩ := c
    simp only at state initialState buffer
    subst state initialState buffer
    rfl

/-- A seeding is all or nothing when the key is empty, when all four calls of the crypto library
    succeed, or when it has nothing left to wipe. -/
theorem reseed_atomic_iff (hmac : Hmac σ) (key nonce info : Bytes) (c : Cipher) (st : σ) :
    ReseedAtomic hmac key nonce info c st ↔
      key = [] ∨ (exchanges hmac key nonce [] info st).1.isSome = true ∨ AlreadyWiped c key nonce info := by
  rw [← alreadyWiped_iff]
  rcases reseed_cases hmac key nonce info c st with
    ⟨empty, ran⟩ | ⟨_, _, _, answered, _, ran⟩ | ⟨st', failed, present, ran⟩
  · refine iff_of_true ?_ (Or.inl empty)
    intro e c' st' thrown
    rw [ran] at thrown
    cases thrown
    rfl
  · refine iff_of_true ?_ (Or.inr (Or.inl (by rw [answered]; rfl)))
    intro e c' st' thrown
    rw [ran] at thrown
    cases thrown
  · rw [failed]
    constructor
    · intro atomic
      exact Or.inr (Or.inr (atomic _ _ _ ran))
    · rintro (empty | answered | wiped)
      · exact absurd empty present
      · cases answered
      · intro e c' st'' thrown
        rw [ran] at thrown
        cases thrown
        exact wiped

/-- The first call after a construction fails: the cipher goes on from the all-zero state. -/
theorem not_reseed_atomic :
    ∃ c, Reachable (failingFrom 4 referenceHmac) c ∧ ¬ ReseedAtomic (failingFrom 4 referenceHmac) [0x43] [] [] c 4 ∧
      reseed (failingFrom 4 referenceHmac) [0x43] [] [] c 4 = (.error hmacFailed, reseedWiped c [0x43] [] [], 5) ∧
        c.state ≠ {} ∧ (next (reseedWiped c [0x43] [] [])).1 = extract (step {}) := by
  have built := construct_failingFrom referenceHmac (Nat.le_refl 4) (List.replicate 12 1) []
    (show [(0x42 : Byte)] ≠ [] by decide)
  have ran := reseed_failingFrom referenceHmac (Nat.le_refl 4) [] [] (show [(0x43 : Byte)] ≠ [] by decide)
  refine ⟨_, .constructed built, ?_, ran _, ?_, rfl⟩
  · intro atomic
    have wiped := congrArg Cipher.keyMaterial (atomic _ _ _ (ran _))
    exact absurd wiped (by decide)
  · intro zero
    have steps (params : InitParams) (zero : stateOf params = {}) : False := by
      have counter := stateOf_counter params
      rw [zero] at counter
      exact absurd counter (by decide)
    simp only [seededWith] at zero
    exact steps _ zero

/-! ## The chaotic regime over whole lives -/

/-- Ciphers whose states all come from keys: constructed, drawn from, reset and reseeded. -/
inductive KeyDerived (hmac : Hmac σ) : Cipher → Prop
  | constructed {key nonce info : Bytes} {st st' : σ} {c : Cipher} :
      construct hmac key nonce info st = (.ok c, st') → KeyDerived hmac c
  | drawn {c : Cipher} (d : Draw) : KeyDerived hmac c → KeyDerived hmac (draw d c).2
  | reset {c : Cipher} : KeyDerived hmac c → KeyDerived hmac (reset c)
  | reseeded {c : Cipher} (key nonce info : Bytes) (st : σ) : KeyDerived hmac c →
      KeyDerived hmac (reseed hmac key nonce info c st).2.1

/-- Both the state and the reset point are in the regime. -/
structure CipherInRegime (c : Cipher) : Prop where
  bound : c.bufferPos ≤ 8
  state : InRegime c.state
  initialState : InRegime c.initialState

theorem draw_steps (d : Draw) {c : Cipher} (bound : c.bufferPos ≤ 8) : ∃ n, (draw d c).2.state = step^[n] c.state := by
  have source := congrArg WordTaps.Tap.source (draw_simulates d c (tap c) ⟨rfl, bound⟩).2.same
  cases d with
  | next => exact ⟨1, rfl⟩
  | fill output => exact ⟨_, source.symm⟩
  | generate count => exact ⟨_, source.symm⟩

theorem KeyDerived.inRegime {hmac : Hmac σ} (never : NeverFails hmac) {c : Cipher} (derived : KeyDerived hmac c) :
    CipherInRegime c := by
  have start {key nonce info : Bytes} {st st' : σ} {s : State}
      (ran : deriveState hmac key nonce [] info st = (.ok s, st')) :
      CipherInRegime (seededWith s key nonce info) := by
    obtain ⟨_, stateBlock, paramBlock, _, same⟩ := deriveState_ok ran
    have inside : InRegime s := by
      rw [same]
      exact stateOf_inRegime _
    exact ⟨Nat.le_refl 8, inside, inside⟩
  induction derived with
  | constructed ran =>
    obtain ⟨_, s, derived, rfl⟩ := construct_ok ran
    exact start derived
  | @drawn c d _ ih =>
    obtain ⟨n, steps⟩ := draw_steps d ih.bound
    have seed := draw_seed d ih.bound
    refine ⟨draw_bound d ih.bound, ?_, ?_⟩
    · rw [steps]
      exact iterate_inRegime ih.state n
    · rw [seed.initialState]
      exact ih.initialState
  | reset _ ih => exact ⟨Nat.le_refl 8, ih.initialState, ih.initialState⟩
  | @reseeded c key nonce info st _ ih =>
    rcases reseed_cases hmac key nonce info c st with ⟨_, ran⟩ | ⟨_, _, _, _, _, ran⟩ | ⟨st', failed, _, _⟩
    · rw [ran]
      exact ih
    · obtain ⟨_, s, derived, same⟩ := reseed_ok ran
      rw [ran, same]
      exact start derived
    · obtain ⟨blocks, st'', answered⟩ := exchanges_answered never key nonce [] info st
      rw [failed] at answered
      cases answered

theorem counter_after (n : Nat) {s : State} {start : Nat} (counter : s.counter = BitVec.ofNat 32 start) :
    (step^[n] s).counter = BitVec.ofNat 32 (start + n) := by
  rw [iterate_counter, counter]
  exact (BitVec.ofNat_add start n).symm

/-- Whatever the crypto library returns, key-derived states stay in the chaotic regime, and their
    counters count the steps. -/
theorem regime_invariant {hmac : Hmac σ} (never : NeverFails hmac) :
    (∀ raw, (clampParam raw).toNat = paramFloor.toNat + raw.toNat % driftMask.toNat) ∧
      (∀ key nonce salt info st, key ≠ [] → ∃ s st', deriveState hmac key nonce salt info st = (.ok s, st') ∧
        ∀ n, InRegime (step^[n] s) ∧ (step^[n] s).counter = BitVec.ofNat 32 (256 + n)) ∧
      (∀ key nonce hash salt info st, key ≠ [] → 16 ≤ hash.length →
        ∃ s st', deriveStateWithMixing hmac key nonce hash salt info st = (.ok s, st') ∧
          ∀ n, InRegime (step^[n] s) ∧ (step^[n] s).counter = BitVec.ofNat 32 (320 + n)) ∧
      (∀ x y z w alpha gamma mu sigma n, InRegime (step^[n] (makeState x y z w alpha gamma mu sigma)) ∧
        (step^[n] (makeState x y z w alpha gamma mu sigma)).counter = BitVec.ofNat 32 n) ∧
      ∀ c, KeyDerived hmac c → ∀ n, InRegime (step^[n] c.state) := by
  refine ⟨toNat_clampParam, ?_, ?_, ?_, ?_⟩
  · intro key nonce salt info st present
    obtain ⟨params, st', derived⟩ := deriveState_total never key nonce salt info present st
    exact ⟨_, st', derived, fun n =>
      ⟨iterate_inRegime (stateOf_inRegime params) n, counter_after n (stateOf_counter params)⟩⟩
  · intro key nonce hash salt info st present long
    obtain ⟨params, st', derived⟩ := deriveState_total never key nonce salt info present st
    have mixed := deriveStateWithMixing_run hmac key nonce hash salt info long st
    rw [derived] at mixed
    refine ⟨_, st', mixed, fun n =>
      ⟨iterate_inRegime (mixHash_inRegime (stateOf_inRegime params) _ _ _ _) n, counter_after n ?_⟩⟩
    rw [mixHash_counter, stateOf_counter]
    rfl
  · intro x y z w alpha gamma mu sigma n
    refine ⟨iterate_inRegime (makeState_inRegime x y z w alpha gamma mu sigma) n, ?_⟩
    rw [counter_after n (show (makeState x y z w alpha gamma mu sigma).counter = BitVec.ofNat 32 0 from rfl), Nat.zero_add]
  · intro c derived n
    exact iterate_inRegime (derived.inRegime never).state n

theorem regime_invariant_reference :
    ∃ s st', deriveState (pureHmac referenceHmac) [0x42] (List.replicate 12 1) [] [] () = (.ok s, st') ∧
      InRegime (step^[1000] s) ∧ (step^[1000] s).counter = BitVec.ofNat 32 (256 + 1000) := by
  have never := (pureHmac_computes referenceHmac).neverFails
  obtain ⟨s, st', derived, run⟩ := (regime_invariant never).2.1 [0x42] (List.replicate 12 1) [] [] () (by decide)
  exact ⟨s, st', derived, run 1000⟩

/-! ## Imported states -/

theorem serve_importState_serializeBinary (c : Cipher) (s : State) :
    serve (.importState (serializeBinary s)) c = (.done, install c s) := by
  simp only [serve, importState, deserializeBinary_serializeBinary]
  rfl
theorem serve_importStateJson_serializeJson (c : Cipher) {np : NumPunct} (plain : Ungrouped np) (s : State)
    (pretty : Bool) :
    serve (.importStateJson (serializeJson np s pretty)) c = (.done, install c s) := by
  have decoded := deserializeJson_document (objectText_serializeJson plain s pretty) (List.Perm.refl _)
  simp only [serve, importStateJson, decoded]
  rfl

/-- What imports do: a blob is installed word for word when its version and its checksum are
    right and refused otherwise; so is a text that reads as the fields of a state; nothing else
    is checked, every state is accepted, and any state is in the regime from its first drift on,
    which is at most 64 steps away. -/
theorem import_exact (c : Cipher) :
    (∀ b, Binary.wordOf b 0 = serializationVersion → Binary.wordOf b 10 = crc32 (b.val.take 40) →
        serve (.importState b) c = (.done, install c (stateIn b)) ∧
          (InRegime (stateIn b) ↔ ParamOk (Binary.wordOf b 5) ∧ ParamOk (Binary.wordOf b 6) ∧ ParamOk (Binary.wordOf b 7) ∧
            ParamOk (Binary.wordOf b 8))) ∧
      (∀ b, ¬ (Binary.wordOf b 0 = serializationVersion ∧ Binary.wordOf b 10 = crc32 (b.val.take 40)) →
        ∃ what, serve (.importState b) c = (.thrown (.serializationError what), c)) ∧
      (∀ json s, (∀ field ∈ jsonFields s, Reads json field.1.toList field.2.toNat) →
        serve (.importStateJson json) c = (.done, install c s)) ∧
      (∀ json, (¬ ∃ s, ∀ field ∈ jsonFields s, Reads json field.1.toList field.2.toNat) →
        ∃ what, serve (.importStateJson json) c = (.thrown (.serializationError what), c)) ∧
      (∀ s, serve (.importState (serializeBinary s)) c = (.done, install c s) ∧
        ∀ np pretty, Ungrouped np → serve (.importStateJson (serializeJson np s pretty)) c = (.done, install c s)) ∧
      ∀ s, ∃ n ≤ 64, DriftsAt s n ∧ (∀ k < n, ¬ DriftsAt s k) ∧ ∀ k ≥ n, InRegime (step^[k] s) := by
  refine ⟨?_, ?_, ?_, ?_, fun s => ⟨serve_importState_serializeBinary c s, fun np pretty plain =>
    serve_importStateJson_serializeJson c plain s pretty⟩, inRegime_within⟩
  · intro b version sum
    have decoded : deserializeBinary b = .ok (stateIn b) := by
      rw [deserializeBinary_eq, if_neg (not_not_intro version), if_neg (not_not_intro sum)]
    refine ⟨?_, inRegime_iff (stateIn b)⟩
    simp only [serve, importState, decoded]
    rfl
  · intro b wrong
    rcases imported_cases c _ (deserializeBinary_declared b) with ⟨s, decoded, _⟩ | ⟨what, _, ran⟩
    · rw [deserializeBinary_eq] at decoded
      by_cases version : Binary.wordOf b 0 = serializationVersion
      · rw [if_neg (not_not_intro version), if_pos (fun sum => wrong ⟨version, sum⟩)] at decoded
        cases decoded
      · rw [if_pos version] at decoded
        cases decoded
    · exact ⟨what, ran⟩
  · intro json s reads
    have decoded : deserializeJson json = .ok s := (deserializeJson_ok_iff json s).mpr fun field within =>
      (parseJsonUint32_ok_iff json field.1 field.2).mpr (reads field within)
    simp only [serve, importStateJson, decoded]
    rfl
  · intro json unread
    rcases imported_cases c _ (deserializeJson_declared json) with ⟨s, decoded, _⟩ | ⟨what, _, ran⟩
    · refine absurd ⟨s, fun field within => ?_⟩ unread
      exact (parseJsonUint32_ok_iff json field.1 field.2).mp ((deserializeJson_ok_iff json s).mp decoded field within)
    · exact ⟨what, ran⟩

/-- The all-zero state is imported, and its parameters are not in the regime. -/
theorem not_import_inRegime :
    deserializeBinary (serializeBinary {}) = .ok {} ∧ deserializeJson (serializeJson classic {} true) = .ok {} ∧
      ¬ InRegime {} :=
  ⟨deserializeBinary_serializeBinary {},
    deserializeJson_document (objectText_serializeJson classic_ungrouped {} true) (List.Perm.refl _), by decide⟩

end Eahcm.Sessions
