import Mathlib.Logic.Basic
import Mathlib.Data.List.Basic

/-!
Objects seen by their callers: a machine answers each call and moves to a next state, and a
caller sees the answers alone. Simulations between two machines are carried from one call to
all sequences of calls.
-/
namespace Eahcm.Machines
universe u v w x y
variable {Call : Type u} {Answer : Type v} {State : Type w}

/-- The answers to a sequence of calls. -/
def answers (step : Call → State → Answer × State) : List Call → State → List Answer
  | [], _ => []
  | call :: rest, s => (step call s).1 :: answers step rest (step call s).2
/-- The state after a sequence of calls. -/
def after (step : Call → State → Answer × State) : List Call → State → State
  | [], s => s
  | call :: rest, s => after step rest (step call s).2
/-- No sequence of calls tells the two states apart. -/
def Indistinguishable (step : Call → State → Answer × State) (s t : State) : Prop :=
  ∀ calls, answers step calls s = answers step calls t

@[simp] theorem answers_nil (step : Call → State → Answer × State) (s : State) : answers step [] s = [] := rfl
@[simp] theorem answers_cons (step : Call → State → Answer × State) (call : Call) (rest : List Call) (s : State) :
    answers step (call :: rest) s = (step call s).1 :: answers step rest (step call s).2 := rfl
@[simp] theorem after_nil (step : Call → State → Answer × State) (s : State) : after step [] s = s := rfl
@[simp] theorem after_cons (step : Call → State → Answer × State) (call : Call) (rest : List Call) (s : State) :
    after step (call :: rest) s = after step rest (step call s).2 := rfl

section
variable {Call' : Type x} {Answer' : Type y} {State' : Type*}

/-- `R` simulates the concrete machine by the abstract one: related states answer related
    calls by related answers and stay related. -/
def Simulates (R : State → State' → Prop) (call : Call → Call') (answer : Answer' → Answer)
    (step : Call → State → Answer × State) (step' : Call' → State' → Answer' × State') : Prop :=
  ∀ c s t, R s t → (step c s).1 = answer (step' (call c) t).1 ∧ R (step c s).2 (step' (call c) t).2

variable {R : State → State' → Prop} {call : Call → Call'} {answer : Answer' → Answer}
  {step : Call → State → Answer × State} {step' : Call' → State' → Answer' × State'}

/-- Every run of the concrete machine is a run of the abstract one. -/
theorem Simulates.answers_eq (sim : Simulates R call answer step step') (calls : List Call) {s : State}
    {t : State'} (related : R s t) : answers step calls s = (answers step' (calls.map call) t).map answer := by
  induction calls generalizing s t with
  | nil => rfl
  | cons c rest ih =>
    obtain ⟨same, next⟩ := sim c s t related
    simp [same, ih next]
theorem Simulates.after_related (sim : Simulates R call answer step step') (calls : List Call) {s : State}
    {t : State'} (related : R s t) : R (after step calls s) (after step' (calls.map call) t) := by
  induction calls generalizing s t with
  | nil => exact related
  | cons c rest ih => exact ih (sim c s t related).2
end

/-- A relation that every call keeps and that equates the answers makes states
    indistinguishable. -/
theorem indistinguishable_of_bisimulation {step : Call → State → Answer × State} {R : State → State → Prop}
    (sim : Simulates R id id step step) {s t : State} (related : R s t) : Indistinguishable step s t := by
  intro calls
  simpa using sim.answers_eq calls related

end Eahcm.Machines
