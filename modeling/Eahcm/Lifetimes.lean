import Eahcm.Objects

/-!
Programs with any number of ciphers, which they construct, call, seed, move and destroy. A buffer
of key material is given up with the key still in it exactly by a constructor that throws and by a
move assignment onto a cipher that has a key (`keys_wiped_iff`); a move hands the stream over and
leaves the same object behind whatever its key was (`moves_transfer`).
-/
namespace Eahcm.Lifetimes
open Eahcm.Types Eahcm.KeySchedule Eahcm.Machines Eahcm.Ciphers Eahcm.Sessions Eahcm.Objects
variable {σ : Type}

/-- The objects that a program has, by their addresses, the crypto library, and the buffers of key
    material that were given up so far. -/
structure Memory (σ : Type) where
  objects : Nat → Option Cipher
  library : σ
  released : List Bytes
/-- No object yet. -/
def Memory.start (library : σ) : Memory σ := ⟨fun _ => none, library, []⟩

/-- The memory after a move between two of its objects. -/
def Memory.moved (m : Memory σ) (address source : Nat) (t : Transfer) : Memory σ where
  objects := Function.update (Function.update m.objects source (some t.other)) address (some t.target)
  library := m.library
  released := t.released

theorem objects_moved (m : Memory σ) (address source : Nat) (t : Transfer) (i : Nat) :
    (m.moved address source t).objects i =
      if i = address then some t.target else if i = source then some t.other else m.objects i := by
  change Function.update (Function.update m.objects source (some t.other)) address (some t.target) i = _
  rw [Function.update_apply, Function.update_apply]

/-- What a program does, each to the object at an address, moves from another address. -/
inductive Action
  | construct (address : Nat) (key nonce info : Bytes)
  | call (address : Nat) (call : Call)
  | reseed (address : Nat) (key nonce info : Bytes)
  | moveConstruct (address source : Nat)
  | moveAssign (address source : Nat)
  | destroy (address : Nat)

/-- One action, with none where there is no object to act on, or no room for one. -/
def perform (hmac : Hmac σ) : Action → Memory σ → Option (Memory σ)
  | .construct address key nonce info, m =>
    match m.objects address with
    | some _ => none
    | none =>
      match constructorBody hmac key nonce info ⟨{}, m.library, m.released⟩ with
      -- the members are destroyed, the object never was one
      | (.error _, f) => some ⟨m.objects, f.library, giveUp f.object.keyMaterial f.released⟩
      | (.ok (), f) => some ⟨Function.update m.objects address (some f.object), f.library, f.released⟩
  | .call address call, m => do
    let c ← m.objects address
    return { m with objects := Function.update m.objects address (some (serve call c).2) }
  | .reseed address key nonce info, m => do
    let c ← m.objects address
    let f := (reseedBody hmac key nonce info ⟨c, m.library, m.released⟩).2
    return ⟨Function.update m.objects address (some f.object), f.library, f.released⟩
  | .moveConstruct address source, m =>
    match m.objects address, m.objects source with
    | none, some other => some (m.moved address source (moveConstructorBody ⟨{}, other, m.released⟩))
    | _, _ => none
  | .moveAssign address source, m =>
    match m.objects address, m.objects source with
    | some target, some other =>
      if address = source then some m
      else some (m.moved address source (moveAssignmentBody ⟨target, other, m.released⟩))
    | _, _ => none
  | .destroy address, m => do
    let c ← m.objects address
    return ⟨Function.update m.objects address none, m.library, giveUp (destructorBody c).keyMaterial m.released⟩
/-- A program, action by action. -/
def run (hmac : Hmac σ) : List Action → Memory σ → Option (Memory σ)
  | [], m => some m
  | action :: rest, m => do run hmac rest (← perform hmac action m)

/-- What an action does that can be performed, by the kind of action. -/
theorem perform_construct {hmac : Hmac σ} {address : Nat} {key nonce info : Bytes} {m m' : Memory σ}
    (done : perform hmac (.construct address key nonce info) m = some m') :
    (key = [] ∧ m' = m) ∨
      (∃ blocks st, key ≠ [] ∧ exchanges hmac key nonce [] info m.library = (some blocks, st) ∧
        m' = ⟨Function.update m.objects address
          (some (seededWith (stateOf (paramsOf blocks.1 blocks.2)) key nonce info)), st, m.released⟩) ∨
      ∃ st, key ≠ [] ∧ exchanges hmac key nonce [] info m.library = (none, st) ∧
        m' = ⟨m.objects, st, giveUp key m.released⟩ := by
  simp only [perform] at done
  split at done
  · cases done
  · by_cases present : key = []
    · subst present
      cases done
      exact Or.inl ⟨rfl, rfl⟩
    · right
      rw [constructorBody_run hmac nonce info present, deriveState_run hmac key nonce [] info present] at done
      rcases answer : exchanges hmac key nonce [] info m.library with ⟨_ | ⟨stateBlock, paramBlock⟩, st⟩
      · rw [answer] at done
        cases done
        exact Or.inr ⟨st, present, rfl, rfl⟩
      · rw [answer] at done
        cases done
        exact Or.inl ⟨(stateBlock, paramBlock), st, present, rfl, rfl⟩
theorem perform_call {hmac : Hmac σ} {address : Nat} {call : Call} {m m' : Memory σ}
    (done : perform hmac (.call address call) m = some m') :
    ∃ c, m.objects address = some c ∧
      m' = { m with objects := Function.update m.objects address (some (serve call c).2) } := by
  obtain ⟨c, live, made⟩ := Option.bind_eq_some_iff.mp done
  exact ⟨c, live, (Option.some.inj made).symm⟩
theorem perform_reseed {hmac : Hmac σ} {address : Nat} {key nonce info : Bytes} {m m' : Memory σ}
    (done : perform hmac (.reseed address key nonce info) m = some m') :
    ∃ c, m.objects address = some c ∧
      m' = ⟨Function.update m.objects address (some (reseed hmac key nonce info c m.library).2.1),
        (reseed hmac key nonce info c m.library).2.2,
        if key = [] then m.released else giveUp (zeroed c.keyMaterial) m.released⟩ := by
  obtain ⟨c, live, made⟩ := Option.bind_eq_some_iff.mp done
  rw [reseedBody_run] at made
  exact ⟨c, live, (Option.some.inj made).symm⟩
theorem perform_moveConstruct {hmac : Hmac σ} {address source : Nat} {m m' : Memory σ}
    (done : perform hmac (.moveConstruct address source) m = some m') :
    ∃ a, m.objects address = none ∧ m.objects source = some a ∧
      m' = m.moved address source ⟨a, {}, m.released⟩ := by
  simp only [perform] at done
  split at done
  · next a free live =>
    rw [moveConstructorBody_eq] at done
    exact ⟨a, free, live, (Option.some.inj done).symm⟩
  · cases done
theorem perform_moveAssign {hmac : Hmac σ} {address source : Nat} {m m' : Memory σ}
    (done : perform hmac (.moveAssign address source) m = some m') :
    ∃ target a, m.objects address = some target ∧ m.objects source = some a ∧
      (address = source ∧ m' = m ∨
        address ≠ source ∧ m' = m.moved address source ⟨a, {}, giveUp target.keyMaterial m.released⟩) := by
  simp only [perform] at done
  split at done
  · next target a old live =>
    refine ⟨target, a, old, live, ?_⟩
    by_cases same : address = source
    · rw [if_pos same] at done
      exact Or.inl ⟨same, (Option.some.inj done).symm⟩
    · rw [if_neg same, moveAssignmentBody_eq] at done
      exact Or.inr ⟨same, (Option.some.inj done).symm⟩
  · cases done
theorem perform_destroy {hmac : Hmac σ} {address : Nat} {m m' : Memory σ}
    (done : perform hmac (.destroy address) m = some m') :
    ∃ c, m.objects address = some c ∧
      m' = ⟨Function.update m.objects address none, m.library, giveUp (zeroed c.keyMaterial) m.released⟩ := by
  obtain ⟨c, live, made⟩ := Option.bind_eq_some_iff.mp done
  rw [destructorBody_key] at made
  exact ⟨c, live, (Option.some.inj made).symm⟩

/-- Every object of the program is a reachable cipher. -/
def Living (hmac : Hmac σ) (m : Memory σ) : Prop := ∀ address c, m.objects address = some c → Reachable hmac c

theorem living_update {hmac : Hmac σ} {objects : Nat → Option Cipher}
    (living : ∀ address c, objects address = some c → Reachable hmac c) (address : Nat) {c : Cipher}
    (reachable : Reachable hmac c) :
    ∀ other c', Function.update objects address (some c) other = some c' → Reachable hmac c' := by
  intro other c' live
  by_cases same : other = address
  · rw [same, Function.update_self] at live
    cases live
    exact reachable
  · rw [Function.update_of_ne same] at live
    exact living other c' live

theorem perform_living {hmac : Hmac σ} {action : Action} {m m' : Memory σ} (living : Living hmac m)
    (done : perform hmac action m = some m') : Living hmac m' := by
  have moved {a : Cipher} {source : Nat} (address : Nat) (live : m.objects source = some a) :=
    living_update (living_update living source (.movedFrom (living source a live))) address (living source a live)
  cases action with
  | construct address key nonce info =>
    rcases perform_construct done with ⟨_, rfl⟩ | ⟨blocks, st, present, answer, rfl⟩ | ⟨st, _, _, rfl⟩
    · exact living
    · have built : construct hmac key nonce info m.library =
          (.ok (seededWith (stateOf (paramsOf blocks.1 blocks.2)) key nonce info), st) := by
        rw [construct_run hmac nonce info present, deriveState_run hmac key nonce [] info present, answer]
      exact living_update living address (.constructed built)
    · exact living
  | call address call =>
    obtain ⟨c, live, rfl⟩ := perform_call done
    exact living_update living address (.served call (living address c live))
  | reseed address key nonce info =>
    obtain ⟨c, live, rfl⟩ := perform_reseed done
    exact living_update living address (.reseeded key nonce info m.library (living address c live))
  | moveConstruct address source =>
    obtain ⟨a, _, live, rfl⟩ := perform_moveConstruct done
    exact moved address live
  | moveAssign address source =>
    obtain ⟨target, a, _, live, ⟨_, rfl⟩ | ⟨_, rfl⟩⟩ := perform_moveAssign done
    · exact living
    · exact moved address live
  | destroy address =>
    obtain ⟨c, live, rfl⟩ := perform_destroy done
    intro other c' live'
    change Function.update m.objects address none other = some c' at live'
    by_cases same : other = address
    · rw [same, Function.update_self] at live'
      cases live'
    · rw [Function.update_of_ne same] at live'
      exact living other c' live'

/-- The ciphers that programs have are the reachable ones. -/
theorem run_living {hmac : Hmac σ} {actions : List Action} {m m' : Memory σ} (living : Living hmac m)
    (done : run hmac actions m = some m') : Living hmac m' := by
  induction actions generalizing m with
  | nil =>
    cases done
    exact living
  | cons action rest ih =>
    obtain ⟨between, first, later⟩ := Option.bind_eq_some_iff.mp done
    exact ih (perform_living living first) later

/-- Every buffer that was given up held zeros. -/
def Wiped (released : List Bytes) : Prop := ∀ bytes ∈ released, AllZero bytes
/-- An action that gives up no key: a construction with an empty key, or one that the crypto library
    does not fail, or with zeros for a key, and an assignment to the object itself or to one
    whose key material is zeros. -/
def Wipes (hmac : Hmac σ) : Action → Memory σ → Prop
  | .construct _ key nonce info, m =>
    key = [] ∨ (exchanges hmac key nonce [] info m.library).1.isSome = true ∨ AllZero key
  | .moveAssign address source, m => address = source ∨ ∀ c, m.objects address = some c → AllZero c.keyMaterial
  | _, _ => True
/-- Every action of a program, where it is performed, gives up no key. -/
def AllWipe (hmac : Hmac σ) : List Action → Memory σ → Prop
  | [], _ => True
  | action :: rest, m => Wipes hmac action m ∧ ∀ m', perform hmac action m = some m' → AllWipe hmac rest m'

theorem allZero_zeroed (bytes : Bytes) : AllZero (zeroed bytes) := fun _ member => List.eq_of_mem_replicate member
theorem wiped_giveUp {bytes : Bytes} {released : List Bytes} :
    Wiped (giveUp bytes released) ↔ Wiped released ∧ AllZero bytes := by
  by_cases empty : bytes = []
  · subst empty
    simp [giveUp, AllZero]
  · simp [giveUp, empty, Wiped, or_imp, forall_and]

/-- An action adds a buffer with a key in it exactly when it is not one of those. -/
theorem perform_wiped {hmac : Hmac σ} {action : Action} {m m' : Memory σ} (done : perform hmac action m = some m') :
    Wiped m'.released ↔ Wiped m.released ∧ Wipes hmac action m := by
  cases action with
  | construct address key nonce info =>
    rcases perform_construct done with ⟨empty, rfl⟩ | ⟨blocks, st, present, answer, rfl⟩ | ⟨st, present, answer, rfl⟩
    · exact (and_iff_left (Or.inl empty)).symm
    · exact (and_iff_left (Or.inr (Or.inl (by rw [answer]; rfl)))).symm
    · simp only [Wipes, answer, present, false_or, Option.isSome_none, Bool.false_eq_true]
      exact wiped_giveUp
  | call address call =>
    obtain ⟨c, _, rfl⟩ := perform_call done
    exact (and_iff_left trivial).symm
  | reseed address key nonce info =>
    obtain ⟨c, _, rfl⟩ := perform_reseed done
    have kept : Wiped (giveUp (zeroed c.keyMaterial) m.released) ↔ Wiped m.released :=
      wiped_giveUp.trans (and_iff_left (allZero_zeroed _))
    refine Iff.trans ?_ (and_iff_left trivial).symm
    by_cases empty : key = []
    · simp only [empty, if_true]
    · simp only [empty, if_false, kept]
  | moveConstruct address source =>
    obtain ⟨a, _, _, rfl⟩ := perform_moveConstruct done
    exact (and_iff_left trivial).symm
  | moveAssign address source =>
    obtain ⟨target, a, old, _, ⟨same, rfl⟩ | ⟨different, rfl⟩⟩ := perform_moveAssign done
    · exact (and_iff_left (Or.inl same)).symm
    · simp only [Wipes, different, false_or, old, Option.some.injEq, forall_eq']
      exact wiped_giveUp
  | destroy address =>
    obtain ⟨c, _, rfl⟩ := perform_destroy done
    refine Iff.trans ?_ (and_iff_left trivial).symm
    exact wiped_giveUp.trans (and_iff_left (allZero_zeroed _))

theorem run_wiped {hmac : Hmac σ} {actions : List Action} {m m' : Memory σ} (done : run hmac actions m = some m') :
    Wiped m'.released ↔ Wiped m.released ∧ AllWipe hmac actions m := by
  induction actions generalizing m with
  | nil =>
    cases done
    exact (and_iff_left trivial).symm
  | cons action rest ih =>
    obtain ⟨between, first, later⟩ := Option.bind_eq_some_iff.mp done
    have only : (∀ m', perform hmac action m = some m' → AllWipe hmac rest m') ↔ AllWipe hmac rest between := by
      constructor
      · exact fun all => all between first
      · intro wipe m' other
        rw [first] at other
        cases other
        exact wipe
    rw [ih later, perform_wiped first, AllWipe, only, and_assoc]

/-- In every program, all buffers given up held zeros exactly when every construction succeeded
    or had no key to lose, and no move was assigned to an object that had a key. -/
theorem keys_wiped_iff {hmac : Hmac σ} {actions : List Action} {st : σ} {m : Memory σ}
    (done : run hmac actions (.start st) = some m) : Wiped m.released ↔ AllWipe hmac actions (.start st) := by
  rw [run_wiped done]
  exact and_iff_right (by simp [Wiped, Memory.start])

/-- A cipher is constructed, seeded again and destroyed. -/
def reseedAndDestroy : List Action := [.construct 0 [0x42] [] [], .reseed 0 [0x43, 0x44] [] [], .destroy 0]
theorem keys_wiped_iff_destroyed : ∃ m, m.released = [[0], [0, 0]] ∧
    run (pureHmac referenceHmac) reseedAndDestroy (.start ()) = some m ∧
      AllWipe (pureHmac referenceHmac) reseedAndDestroy (.start ()) := by
  have done : ∃ m, run (pureHmac referenceHmac) reseedAndDestroy (.start ()) = some m ∧
      m.released = [[0], [0, 0]] := ⟨_, rfl, by decide +kernel⟩
  obtain ⟨m, done, released⟩ := done
  refine ⟨m, released, done, (keys_wiped_iff done).mp ?_⟩
  rw [released]
  simp [Wiped, AllZero]

/-- All buffers that any program gives up hold zeros. -/
def KeysWiped (hmac : Hmac σ) (st : σ) : Prop :=
  ∀ actions m, run hmac actions (.start st) = some m → Wiped m.released

/-- A cipher is assigned to one that has a key. -/
def assignOntoKey : List Action := [.construct 0 [0x42] [] [], .construct 1 [0x43] [] [], .moveAssign 0 1]
/-- A key is given up by a move assignment onto its cipher, and by a construction whose first call of
    the crypto library fails. -/
theorem not_keys_wiped :
    ¬ KeysWiped (pureHmac referenceHmac) () ∧ ¬ KeysWiped (failingFrom 0 referenceHmac) 0 ∧
      (run (pureHmac referenceHmac) assignOntoKey (.start ())).map (·.released) = some [[0x42]] ∧
      (run (failingFrom 0 referenceHmac) [.construct 0 [0x42] [] []] (.start 0)).map (·.released) = some [[0x42]] := by
  have assigned : (run (pureHmac referenceHmac) assignOntoKey (.start ())).map (·.released) = some [[0x42]] := by
    decide +kernel
  have thrown : (run (failingFrom 0 referenceHmac) [.construct 0 [0x42] [] []] (.start 0)).map (·.released) =
      some [[0x42]] := by decide +kernel
  have key : ¬ Wiped [[0x42]] := by
    intro wiped
    exact absurd (wiped [0x42] (by simp)) (by decide)
  refine ⟨fun claim => ?_, fun claim => ?_, assigned, thrown⟩
  · obtain ⟨m, done, released⟩ := Option.map_eq_some_iff.mp assigned
    exact key (released ▸ claim _ m done)
  · obtain ⟨m, done, released⟩ := Option.map_eq_some_iff.mp thrown
    exact key (released ▸ claim _ m done)

/-- What a move from an object has done: the other object is what it was, with its stream, and what
    is left of it is the same whatever its key and its history were; no further object is touched. -/
structure Moved (m m' : Memory σ) (address source : Nat) (a : Cipher) : Prop where
  moved : m'.objects address = some a
  left : m'.objects source = some {}
  others : ∀ i, i ≠ address → i ≠ source → m'.objects i = m.objects i
  stream : ∀ c, m'.objects address = some c → Indistinguishable serve c a
  silent : ∀ c, m'.objects source = some c → ∀ b, Indistinguishable serve c (movedFrom b)

theorem moved_spec (m : Memory σ) {address source : Nat} (a : Cipher) (released : List Bytes)
    (different : address ≠ source) : Moved m (m.moved address source ⟨a, {}, released⟩) address source a := by
  have moved : (m.moved address source ⟨a, {}, released⟩).objects address = some a := by
    rw [objects_moved, if_pos rfl]
  have left : (m.moved address source ⟨a, {}, released⟩).objects source = some {} := by
    rw [objects_moved, if_neg different.symm, if_pos rfl]
  refine ⟨moved, left, fun i notAddress notSource => ?_, fun c there => ?_, fun c there b => ?_⟩
  · rw [objects_moved, if_neg notAddress, if_neg notSource]
  · rw [moved] at there
    cases there
    exact fun _ => rfl
  · rw [left] at there
    cases there
    exact fun _ => rfl

/-- A move construction, and a move assignment from a different object, hand the stream of the source
    over and leave nothing of it; a move assignment of an object to itself changes nothing. -/
theorem moves_transfer (hmac : Hmac σ) {m : Memory σ} {source : Nat} {a : Cipher} (live : m.objects source = some a) :
    (∀ address, m.objects address = none →
        ∃ m', perform hmac (.moveConstruct address source) m = some m' ∧ Moved m m' address source a) ∧
      (∀ address target, m.objects address = some target → address ≠ source →
        ∃ m', perform hmac (.moveAssign address source) m = some m' ∧ Moved m m' address source a) ∧
      perform hmac (.moveAssign source source) m = some m := by
  refine ⟨fun address free => ?_, fun address target old different => ?_, ?_⟩
  · have different : address ≠ source := by
      rintro rfl
      rw [free] at live
      cases live
    refine ⟨_, ?_, moved_spec m a m.released different⟩
    simp only [perform, free, live, moveConstructorBody_eq]
  · refine ⟨_, ?_, moved_spec m a (giveUp target.keyMaterial m.released) different⟩
    simp only [perform, old, live, if_neg different, moveAssignmentBody_eq]
  · simp only [perform, live, if_true]

/-- A cipher in the middle of a word, moved onto a new one. -/
theorem moves_transfer_buffered : ∃ a m', a.bufferPos = 3 ∧
    perform (pureHmac referenceHmac) (.moveAssign 1 0) ⟨fun i => if i = 0 then some a else some {}, (), []⟩ = some m' ∧
      m'.objects 1 = some a ∧ m'.objects 0 = some {} := by
  let a : Cipher := { state := { x := 1 }, keyMaterial := [0x42], bufferPos := 3 }
  have live : (⟨fun i => if i = 0 then some a else some {}, (), []⟩ : Memory Unit).objects 0 = some a := rfl
  obtain ⟨m', done, moved⟩ := (moves_transfer (pureHmac referenceHmac) live).2.1 1 {} rfl (by decide)
  exact ⟨a, m', rfl, done, moved.moved, moved.left⟩

end Eahcm.Lifetimes
