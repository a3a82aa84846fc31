import Mathlib.Data.List.Basic
import Mathlib.Tactic.TypeStar

/-!
Programs of several parties over one memory. An action is possible or not where it is performed, is
answered, and belongs to one party. When actions read and write the part of their own party alone,
an interleaving of the parties' programs is possible exactly when each program is possible alone,
and then gives every party the answers, and leaves it the part of the memory, that it has alone
(`possible_iff`, `alone`).
-/
namespace Eahcm.Interleavings
variable {Action Answer Memory Party Part : Type*}

/-- The answers to a program, with its actions, and the memory after it; none where some action of it
    is impossible. -/
def perform (act : Action → Memory → Option (Answer × Memory)) :
    List Action → Memory → Option (List (Action × Answer) × Memory)
  | [], m => some ([], m)
  | action :: rest, m =>
    (act action m).bind fun done =>
      (perform act rest done.2).map fun later => ((action, done.1) :: later.1, later.2)

theorem perform_cons {act : Action → Memory → Option (Answer × Memory)} {action : Action} {rest : List Action}
    {m last : Memory} {log : List (Action × Answer)} :
    perform act (action :: rest) m = some (log, last) ↔ ∃ answer m' later, act action m = some (answer, m') ∧
      perform act rest m' = some (later, last) ∧ log = (action, answer) :: later := by
  constructor
  · intro done
    obtain ⟨⟨answer, m'⟩, first, done⟩ := Option.bind_eq_some_iff.mp done
    obtain ⟨⟨later, end'⟩, others, done⟩ := Option.map_eq_some_iff.mp done
    cases done
    exact ⟨answer, m', later, first, others, rfl⟩
  · rintro ⟨answer, m', later, first, others, rfl⟩
    simp only [perform, first, others, Option.bind_some, Option.map_some]

/-- Maps of the answers and of the memory that keep what every action does keep what every program
    does. -/
theorem perform_map {Answer' Memory' : Type*} {act : Action → Memory → Option (Answer × Memory)}
    {act' : Action → Memory' → Option (Answer' × Memory')} (g : Answer → Answer') (f : Memory → Memory')
    (keeps : ∀ action m, (act action m).map (Prod.map g f) = act' action (f m)) (actions : List Action) (m : Memory) :
    (perform act actions m).map (Prod.map (List.map (Prod.map id g)) f) = perform act' actions (f m) := by
  induction actions generalizing m with
  | nil => rfl
  | cons action rest ih =>
    have here := keeps action m
    rw [perform, perform, ← here]
    rcases act action m with _ | ⟨answer, m'⟩
    · rfl
    · simp only [Option.bind_some, Option.map_some, Prod.map_apply, ← ih m', Option.map_map]
      rfl

/-- The actions of one party. -/
def own [DecidableEq Party] (party : Action → Party) (p : Party) (actions : List Action) : List Action :=
  actions.filter fun action => party action = p
/-- The actions of one party with their answers. -/
def ownLog [DecidableEq Party] (party : Action → Party) (p : Party) (log : List (Action × Answer)) :
    List (Action × Answer) :=
  log.filter fun entry => party entry.1 = p

/-- The allowed actions read and write the part of their party alone. -/
structure Confined (act : Action → Memory → Option (Answer × Memory)) (party : Action → Party)
    (part : Party → Memory → Part) (allowed : Action → Prop) : Prop where
  own : ∀ {action m m' n answer}, allowed action → act action m = some (answer, m') →
    part (party action) m = part (party action) n →
      ∃ n', act action n = some (answer, n') ∧ part (party action) n' = part (party action) m'
  frame : ∀ {action m m' answer} p, allowed action → act action m = some (answer, m') → party action ≠ p →
    part p m' = part p m

section
variable [DecidableEq Party] {act : Action → Memory → Option (Answer × Memory)} {party : Action → Party}
  {part : Party → Memory → Part} {allowed : Action → Prop}

/-- Every party has of a program what it has of its own actions alone. -/
theorem alone (confined : Confined act party part allowed) (p : Party) {actions : List Action}
    (within : ∀ action ∈ actions, allowed action) {m last n : Memory} {log : List (Action × Answer)}
    (done : perform act actions m = some (log, last)) (same : part p m = part p n) :
    ∃ end', perform act (own party p actions) n = some (ownLog party p log, end') ∧ part p end' = part p last := by
  induction actions generalizing m n log with
  | nil =>
    cases done
    exact ⟨n, rfl, same.symm⟩
  | cons action rest ih =>
    obtain ⟨answer, m', later, first, others, rfl⟩ := perform_cons.mp done
    have here := within action (List.mem_cons_self ..)
    have there : ∀ action ∈ rest, allowed action := fun a member => within a (List.mem_cons_of_mem _ member)
    by_cases mine : party action = p
    · subst mine
      obtain ⟨n', first', kept⟩ := confined.own here first same
      obtain ⟨end', done', same'⟩ := ih there others kept.symm
      refine ⟨end', ?_, same'⟩
      simp only [own, ownLog, List.filter_cons, decide_true, if_true]
      exact perform_cons.mpr ⟨answer, n', _, first', done', rfl⟩
    · obtain ⟨end', done', same'⟩ := ih there others ((confined.frame p here first mine).trans same)
      refine ⟨end', ?_, same'⟩
      simpa [own, ownLog, mine] using done'

/-- A program is possible exactly when every party's own actions are. -/
theorem possible_iff (confined : Confined act party part allowed) {actions : List Action}
    (within : ∀ action ∈ actions, allowed action) (m : Memory) :
    (∃ log last, perform act actions m = some (log, last)) ↔
      ∀ p, ∃ log last, perform act (own party p actions) m = some (log, last) := by
  constructor
  · rintro ⟨log, last, done⟩ p
    obtain ⟨end', done', _⟩ := alone confined p within done rfl
    exact ⟨_, end', done'⟩
  · intro each
    induction actions generalizing m with
    | nil => exact ⟨[], m, rfl⟩
    | cons action rest ih =>
      have here := within action (List.mem_cons_self ..)
      have there : ∀ action ∈ rest, allowed action := fun a member => within a (List.mem_cons_of_mem _ member)
      obtain ⟨log, last, done⟩ := each (party action)
      simp only [own, List.filter_cons, decide_true, if_true] at done
      obtain ⟨answer, m', later, first, others, rfl⟩ := perform_cons.mp done
      have remaining (p : Party) : ∃ log last, perform act (own party p rest) m' = some (log, last) := by
        by_cases mine : party action = p
        · subst mine
          exact ⟨later, last, others⟩
        · obtain ⟨log, last, done⟩ := each p
          have others : own party p (action :: rest) = own party p rest := by simp [own, mine]
          rw [others] at done
          have kept := confined.frame p here first mine
          obtain ⟨end', done', _⟩ := alone confined p
            (fun a member => there a (List.mem_of_mem_filter member)) done kept.symm
          exact ⟨_, end', by simpa [own] using done'⟩
      obtain ⟨log, last, done⟩ := ih there m' remaining
      exact ⟨_, last, perform_cons.mpr ⟨answer, m', log, first, done, rfl⟩⟩
end

end Eahcm.Interleavings
