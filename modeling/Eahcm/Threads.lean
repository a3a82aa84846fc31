import Eahcm.Facades
import Eahcm.Interleavings
import Eahcm.Lifetimes

/-!
Threads that share the crypto library and no cipher. When HMAC is a function, what a program gets
back of its actions does not depend on the state of the library (`act_effect`), so in every
interleaving of the calls of several threads each thread gets what it gets alone, and no thread makes
a call of another impossible (`threads_independent`).
-/
namespace Eahcm.Threads
open Eahcm.Types Eahcm.KeySchedule Eahcm.Ciphers Eahcm.Sessions Eahcm.Objects Eahcm.Lifetimes Eahcm.Facades
open Eahcm.Interleavings (own ownLog Confined perform_map alone possible_iff)
variable {σ : Type}

/-- What a program gets back of an action. -/
def reply (hmac : Hmac σ) : Action → Memory σ → Response
  | .construct _ key nonce info, m =>
    seedingAnswer (constructorBody hmac key nonce info ⟨{}, m.library, m.released⟩).1
  | .call address call, m => ((m.objects address).map fun c => (serve call c).1).getD .done
  | .reseed address key nonce info, m =>
    ((m.objects address).map fun c => seedingAnswer (reseedBody hmac key nonce info ⟨c, m.library, m.released⟩).1).getD .done
  | .moveConstruct _ _, _ => .done
  | .moveAssign _ _, _ => .done
  | .destroy _, _ => .done
/-- An action with its answer. -/
def act (hmac : Hmac σ) (action : Action) (m : Memory σ) : Option (Response × Memory σ) :=
  (Lifetimes.perform hmac action m).map fun m' => (reply hmac action m, m')

abbrev Objects := Nat → Option Cipher

/-- The objects after a move. -/
def movedObjects (o : Objects) (address source : Nat) (other : Cipher) : Objects :=
  Function.update (Function.update o source (some {})) address (some other)
/-- A cipher as a functional HMAC constructs it. -/
def fresh (H : Bytes → Int → Bytes → Digest) (key nonce info : Bytes) : Cipher :=
  seededWith (derivedState H key nonce [] info) key nonce info

/-- What an action does to the objects when HMAC is a function. -/
def effect (H : Bytes → Int → Bytes → Digest) : Action → Objects → Option (Response × Objects)
  | .construct address key nonce info, o =>
    match o address with
    | some _ => none
    | none =>
      if key = [] then some (.thrown keyEmpty, o)
      else some (.done, Function.update o address (some (fresh H key nonce info)))
  | .call address call, o =>
    (o address).map fun c => ((serve call c).1, Function.update o address (some (serve call c).2))
  | .reseed address key nonce info, o =>
    (o address).map fun _ =>
      if key = [] then (.thrown keyEmpty, o)
      else (.done, Function.update o address (some (fresh H key nonce info)))
  | .moveConstruct address source, o =>
    match o address, o source with
    | none, some other => some (.done, movedObjects o address source other)
    | _, _ => none
  | .moveAssign address source, o =>
    match o address, o source with
    | some _, some other => some (.done, if address = source then o else movedObjects o address source other)
    | _, _ => none
  | .destroy address, o => (o address).map fun _ => (.done, Function.update o address none)

section
variable {hmac : Hmac σ} {H : Bytes → Int → Bytes → Digest} (computes : Computes hmac H)
include computes

theorem construct_effect (address : Nat) (key nonce info : Bytes) (m : Memory σ) :
    (act hmac (.construct address key nonce info) m).map (Prod.map id Memory.objects) =
      effect H (.construct address key nonce info) m.objects := by
  simp only [act, Lifetimes.perform, effect, reply]
  rcases taken : m.objects address with _ | c
  · by_cases present : key = []
    · subst present
      rfl
    · obtain ⟨st', derived⟩ := deriveState_computes computes key nonce [] info present m.library
      rw [constructorBody_run hmac nonce info present, derived, if_neg present]
      rfl
  · rfl
theorem reseed_effect (address : Nat) (key nonce info : Bytes) (m : Memory σ) :
    (act hmac (.reseed address key nonce info) m).map (Prod.map id Memory.objects) =
      effect H (.reseed address key nonce info) m.objects := by
  simp only [act, Lifetimes.perform, effect, reply, reseedBody_run]
  rcases live : m.objects address with _ | c
  · rfl
  · by_cases present : key = []
    · subst present
      have same : Function.update m.objects address (some c) = m.objects := by
        rw [← live]
        exact Function.update_eq_self address m.objects
      exact congrArg some (Prod.ext rfl same)
    · obtain ⟨st', ran⟩ := reseed_computes computes nonce info present c m.library
      simp only [Option.bind_eq_bind, Option.bind_some, Option.map_some, Option.getD_some, ran, if_neg present]
      rfl

/-- The library is in nothing that a program gets back. -/
theorem act_effect (action : Action) (m : Memory σ) :
    (act hmac action m).map (Prod.map id Memory.objects) = effect H action m.objects := by
  cases action with
  | construct address key nonce info => exact construct_effect computes address key nonce info m
  | call address call =>
    simp only [act, Lifetimes.perform, effect, reply]
    cases m.objects address with
    | none => rfl
    | some c => rfl
  | reseed address key nonce info => exact reseed_effect computes address key nonce info m
  | moveConstruct address source =>
    simp only [act, Lifetimes.perform, effect, reply]
    rcases m.objects address with _ | c <;> rcases m.objects source with _ | other
    all_goals rfl
  | moveAssign address source =>
    simp only [act, Lifetimes.perform, effect, reply]
    rcases m.objects address with _ | c <;> rcases m.objects source with _ | other
    case some.some =>
      by_cases same : address = source
      · simp only [same, if_true]
        rfl
      · simp only [same, if_false]
        rfl
    all_goals rfl
  | destroy address =>
    simp only [act, Lifetimes.perform, effect, reply]
    cases m.objects address with
    | none => rfl
    | some c => rfl
end

/-- The object that an action acts on. -/
def address : Action → Nat
  | .construct address _ _ _ => address
  | .call address _ => address
  | .reseed address _ _ _ => address
  | .moveConstruct address _ => address
  | .moveAssign address _ => address
  | .destroy address => address
/-- The object that a move takes from, of other actions the one that they act on. -/
def source : Action → Nat
  | .moveConstruct _ source => source
  | .moveAssign _ source => source
  | action => address action

theorem update_agree {o n : Objects} {i : Nat} (same : o i = n i) (address : Nat) (c : Option Cipher) :
    Function.update o address c i = Function.update n address c i := by
  rw [Function.update_apply, Function.update_apply, same]
theorem movedObjects_agree {o n : Objects} {i : Nat} (same : o i = n i) (address source : Nat) (other : Cipher) :
    movedObjects o address source other i = movedObjects n address source other i :=
  update_agree (update_agree same source _) address _

/-- An action reads no object but these two, and does the same to what is the same. -/
theorem effect_local (H : Bytes → Int → Bytes → Digest) {action : Action} {o o' n : Objects} {answer : Response}
    (done : effect H action o = some (answer, o')) (here : o (address action) = n (address action))
    (there : o (source action) = n (source action)) :
    ∃ n', effect H action n = some (answer, n') ∧ ∀ i, o i = n i → o' i = n' i := by
  cases action with
  | construct address key nonce info =>
    change o address = n address at here
    simp only [effect] at done ⊢
    rw [← here]
    rcases taken : o address with _ | c <;> rw [taken] at done
    · by_cases present : key = []
      · rw [if_pos present] at done ⊢
        cases done
        exact ⟨n, rfl, fun i same => same⟩
      · rw [if_neg present] at done ⊢
        cases done
        exact ⟨_, rfl, fun i same => update_agree same _ _⟩
    · cases done
  | call address call =>
    change o address = n address at here
    simp only [effect, ← here] at done ⊢
    obtain ⟨c, live, made⟩ := Option.map_eq_some_iff.mp done
    cases made
    exact ⟨_, by rw [live]; rfl, fun i same => update_agree same _ _⟩
  | reseed address key nonce info =>
    change o address = n address at here
    simp only [effect, ← here] at done ⊢
    obtain ⟨c, live, made⟩ := Option.map_eq_some_iff.mp done
    rw [live, Option.map_some]
    by_cases present : key = []
    · rw [if_pos present] at made ⊢
      cases made
      exact ⟨n, rfl, fun i same => same⟩
    · rw [if_neg present] at made ⊢
      cases made
      exact ⟨_, rfl, fun i same => update_agree same _ _⟩
  | moveConstruct address source =>
    change o address = n address at here
    change o source = n source at there
    simp only [effect] at done ⊢
    rw [← here, ← there]
    rcases target : o address with _ | c <;> rcases from' : o source with _ | other <;> rw [target, from'] at done <;>
      cases done
    exact ⟨_, rfl, fun i same => movedObjects_agree same _ _ _⟩
  | moveAssign address source =>
    change o address = n address at here
    change o source = n source at there
    simp only [effect] at done ⊢
    rw [← here, ← there]
    rcases target : o address with _ | c <;> rcases from' : o source with _ | other <;> rw [target, from'] at done <;>
      cases done
    refine ⟨_, rfl, fun i same => ?_⟩
    by_cases self : address = source
    · rw [if_pos self, if_pos self]
      exact same
    · rw [if_neg self, if_neg self]
      exact movedObjects_agree same _ _ _
  | destroy address =>
    change o address = n address at here
    simp only [effect, ← here] at done ⊢
    obtain ⟨c, live, made⟩ := Option.map_eq_some_iff.mp done
    cases made
    exact ⟨_, by rw [live]; rfl, fun i same => update_agree same _ _⟩

/-- An action writes no object but these two. -/
theorem effect_frame (H : Bytes → Int → Bytes → Digest) {action : Action} {o o' : Objects} {answer : Response}
    (done : effect H action o = some (answer, o')) {i : Nat} (notHere : i ≠ address action)
    (notThere : i ≠ source action) : o' i = o i := by
  have moved (at' from' : Nat) (other : Cipher) (notHere : i ≠ at') (notThere : i ≠ from') :
      movedObjects o at' from' other i = o i := by
    rw [movedObjects, Function.update_of_ne notHere, Function.update_of_ne notThere]
  cases action with
  | construct address key nonce info =>
    simp only [effect] at done
    rcases taken : o address with _ | c <;> rw [taken] at done
    · by_cases present : key = []
      · rw [if_pos present] at done
        cases done
        rfl
      · rw [if_neg present] at done
        cases done
        exact Function.update_of_ne notHere _ _
    · cases done
  | call address call =>
    obtain ⟨c, live, made⟩ := Option.map_eq_some_iff.mp done
    cases made
    exact Function.update_of_ne notHere _ _
  | reseed address key nonce info =>
    obtain ⟨c, live, made⟩ := Option.map_eq_some_iff.mp done
    by_cases present : key = []
    · rw [if_pos present] at made
      cases made
      rfl
    · rw [if_neg present] at made
      cases made
      exact Function.update_of_ne notHere _ _
  | moveConstruct address source =>
    simp only [effect] at done
    rcases target : o address with _ | c <;> rcases from' : o source with _ | other <;> rw [target, from'] at done <;>
      cases done
    exact moved address source other notHere notThere
  | moveAssign address source =>
    simp only [effect] at done
    rcases target : o address with _ | c <;> rcases from' : o source with _ | other <;> rw [target, from'] at done <;>
      cases done
    by_cases self : address = source
    · rw [if_pos self]
    · rw [if_neg self]
      exact moved address source other notHere notThere
  | destroy address =>
    obtain ⟨c, live, made⟩ := Option.map_eq_some_iff.mp done
    cases made
    exact Function.update_of_ne notHere _ _

section
variable {Thread : Type} [DecidableEq Thread] (thread : Nat → Thread)

/-- The objects of one thread, each address belonging to one. -/
def part (t : Thread) (o : Objects) : Objects := fun i => if thread i = t then o i else none
/-- The thread that acts. -/
def actor (action : Action) : Thread := thread (address action)
/-- The action takes nothing from another thread. -/
def Within (action : Action) : Prop := thread (source action) = thread (address action)

theorem part_eq_iff {t : Thread} {o n : Objects} :
    part thread t o = part thread t n ↔ ∀ i, thread i = t → o i = n i := by
  constructor
  · intro same i mine
    have here := congrFun same i
    rw [part, part, if_pos mine, if_pos mine] at here
    exact here
  · intro same
    funext i
    by_cases mine : thread i = t
    · rw [part, part, if_pos mine, if_pos mine, same i mine]
    · rw [part, part, if_neg mine, if_neg mine]

theorem effect_confined (H : Bytes → Int → Bytes → Digest) :
    Confined (effect H) (actor thread) (part thread) (Within thread) where
  own := by
    intro action o o' n answer within done same
    have agree := (part_eq_iff thread).mp same
    obtain ⟨n', done', later⟩ := effect_local H done (agree _ rfl) (agree _ within)
    exact ⟨n', done', (part_eq_iff thread).mpr fun i mine => (later i (agree i mine)).symm⟩
  frame := by
    intro action o o' answer t within done other
    refine (part_eq_iff thread).mpr fun i mine => effect_frame H done ?_ ?_
    · rintro rfl
      exact other mine
    · rintro rfl
      exact other (within.symm.trans mine)

/-- Threads that each have their own ciphers, which they construct, call, seed, move and destroy, and
    share a crypto library whose HMAC is a function: any interleaving of their calls is possible
    exactly when each thread's calls are, and gives each thread the answers, and leaves it the
    ciphers, that it has without the others, whatever state the library is in. -/
theorem threads_independent {hmac : Hmac σ} {H : Bytes → Int → Bytes → Digest} (computes : Computes hmac H)
    {actions : List Action} (within : ∀ action ∈ actions, Within thread action) (m : Memory σ) :
    ((∃ log last, Interleavings.perform (act hmac) actions m = some (log, last)) ↔
        ∀ t, ∃ log last, Interleavings.perform (act hmac) (own (actor thread) t actions) m = some (log, last)) ∧
      ∀ log last, Interleavings.perform (act hmac) actions m = some (log, last) → ∀ t n,
        (∀ i, thread i = t → n.objects i = m.objects i) →
          ∃ end', Interleavings.perform (act hmac) (own (actor thread) t actions) n =
              some (ownLog (actor thread) t log, end') ∧
            ∀ i, thread i = t → end'.objects i = last.objects i := by
  have confined := effect_confined thread H
  have abstract (actions : List Action) (m : Memory σ) :
      (Interleavings.perform (act hmac) actions m).map (Prod.map id Memory.objects) =
        Interleavings.perform (effect H) actions m.objects := by
    simpa using perform_map id Memory.objects (act_effect computes) actions m
  have possible (actions : List Action) (m : Memory σ) :
      (∃ log last, Interleavings.perform (act hmac) actions m = some (log, last)) ↔
        ∃ log last, Interleavings.perform (effect H) actions m.objects = some (log, last) := by
    rw [← abstract]
    constructor
    · rintro ⟨log, last, done⟩
      exact ⟨log, last.objects, by rw [done]; rfl⟩
    · rintro ⟨log, last, done⟩
      obtain ⟨⟨log', last'⟩, done', _⟩ := Option.map_eq_some_iff.mp done
      exact ⟨log', last', done'⟩
  refine ⟨?_, fun log last done t n same => ?_⟩
  · rw [possible, possible_iff confined within]
    exact forall_congr' fun t => (possible _ m).symm
  · have done' : Interleavings.perform (effect H) actions m.objects = some (log, last.objects) := by
      rw [← abstract, done]
      rfl
    have parts := (part_eq_iff thread).mpr fun i mine => (same i mine).symm
    obtain ⟨o, alone', left⟩ := alone confined t within done' parts
    rw [← abstract] at alone'
    obtain ⟨⟨log', end'⟩, ran, made⟩ := Option.map_eq_some_iff.mp alone'
    cases made
    exact ⟨end', ran, (part_eq_iff thread).mp left⟩
end

/-- Two threads, one with the even addresses, that take turns. -/
def takeTurns : List Action :=
  [.construct 0 [0x42] [] [], .construct 1 [0x42] [] [], .call 1 (.draw .next), .call 0 (.draw (.generate 3)),
    .moveConstruct 2 0, .call 1 .reset, .call 2 (.draw .next), .destroy 1]
theorem threads_independent_turns : ∃ log last end',
    Interleavings.perform (act (pureHmac referenceHmac)) takeTurns (.start ()) = some (log, last) ∧
      Interleavings.perform (act (pureHmac referenceHmac)) (own (actor (· % 2)) 0 takeTurns) (.start ()) =
        some (ownLog (actor (· % 2)) 0 log, end') := by
  have within : ∀ action ∈ takeTurns, Within (· % 2) action := by
    simp [takeTurns, Within, source, address]
  have threads := threads_independent (· % 2) (pureHmac_computes referenceHmac) within (.start ())
  obtain ⟨log, last, done⟩ : ∃ log last,
      Interleavings.perform (act (pureHmac referenceHmac)) takeTurns (.start ()) = some (log, last) := ⟨_, _, rfl⟩
  obtain ⟨end', alone', _⟩ := threads.2 log last done 0 (.start ()) fun _ _ => rfl
  exact ⟨log, last, end', done, alone'⟩

end Eahcm.Threads
