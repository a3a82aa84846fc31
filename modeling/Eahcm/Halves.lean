import Eahcm.Fibres
import Eahcm.Influences

/-!
Half of the words of a step. Each equation of a step permutes the words in the two places where it
reads another word through a rotation or the bit mixer. Some pairs of equations so give back half of a
state from the other half (`halves_solved`), and as no values of such a pair are preferred, a step
spreads the words of all states over them evenly (`halves_balanced`).
-/
namespace Eahcm.Halves
open Eahcm.Types Eahcm.Arithmetic Eahcm.States Eahcm.Equations Eahcm.Differences Eahcm.Outputs Eahcm.Influences Eahcm.Fibres

/-- Two words of a state, as the values of two equations. -/
abbrev Pair := Word32 × Word32
def xz (s : State) : Pair := (s.x, s.z)
def xy (s : State) : Pair := (s.x, s.y)
def zw (s : State) : Pair := (s.z, s.w)
def yw (s : State) : Pair := (s.y, s.w)

theorem rol32_bijective {n : Nat} (amount : n ≤ 32) : Function.Bijective fun v : Word32 => rol32 v n :=
  Finite.injective_iff_bijective.mp (rol32_injective amount)
theorem R_bijective : Function.Bijective R := Finite.injective_iff_bijective.mp R_injective
/-- A sum and an exclusive or permute the words. -/
theorem masked_bijective {g : Word32 → Word32} (bijective : Function.Bijective g) (d a : Word32) :
    Function.Bijective fun v => d + (a ^^^ g v) :=
  Finite.injective_iff_bijective.mp fun _ _ same => bijective.injective (cancel same)
theorem masked_bijective_left {g : Word32 → Word32} (bijective : Function.Bijective g) (d b : Word32) :
    Function.Bijective fun v => d + (g v ^^^ b) :=
  Finite.injective_iff_bijective.mp fun _ _ same => bijective.injective (cancel_left same)

section
variable (setting : State) (x y z w : Word32)

theorem x_by_y : Function.Bijective fun y => (step (withWords setting x y z w)).x := by
  simp only [step_x]
  refine Finite.injective_iff_bijective.mp fun y y' same => ?_
  exact rol32_injective (show rotYInX ≤ 32 by decide) (cancel ((BitVec.add_left_inj _).mp same))
theorem y_by_x : Function.Bijective fun x => (step (withWords setting x y z w)).y := by
  simp only [step_y]
  exact masked_bijective (rol32_bijective (show rotXInY ≤ 32 by decide)) (L y setting.gamma) (R w)
theorem y_by_w : Function.Bijective fun w => (step (withWords setting x y z w)).y := by
  simp only [step_y]
  exact masked_bijective_left R_bijective (L y setting.gamma) (rol32 x rotXInY)
theorem z_by_w : Function.Bijective fun w => (step (withWords setting x y z w)).z := by
  simp only [step_z]
  exact masked_bijective (rol32_bijective (show rotWInZ ≤ 32 by decide)) (L z setting.mu) (F x)
theorem w_by_z : Function.Bijective fun z => (step (withWords setting x y z w)).w := by
  simp only [step_w]
  exact masked_bijective (rol32_bijective (show rotZInW ≤ 32 by decide)) (L w setting.sigma) (R y)
theorem w_by_y : Function.Bijective fun y => (step (withWords setting x y z w)).w := by
  simp only [step_w]
  exact masked_bijective_left R_bijective (L w setting.sigma) (rol32 z rotZInW)

/-! The words that an equation does not read make no difference to it. -/

theorem step_x_withWords (w' : Word32) : (step (withWords setting x y z w)).x = (step (withWords setting x y z w')).x := by
  rw [step_x, step_x]
  rfl
theorem step_y_withWords (z' : Word32) : (step (withWords setting x y z w)).y = (step (withWords setting x y z' w)).y := by
  rw [step_y, step_y]
  rfl
theorem step_z_withWords (y' : Word32) : (step (withWords setting x y z w)).z = (step (withWords setting x y' z w)).z := by
  rw [step_z, step_z]
  rfl
theorem step_w_withWords (x' : Word32) : (step (withWords setting x y z w)).w = (step (withWords setting x' y z w)).w := by
  rw [step_w, step_w]
  rfl

end

section
variable (setting : State)

theorem xz_solved (x z : Word32) : Function.Bijective fun p : Pair => xz (step (withWords setting x p.1 z p.2)) := by
  have solved := bijective_pair (x_by_y setting x z 0) fun y => z_by_w setting x y z
  convert solved using 2 with p
  exact Prod.ext (step_x_withWords ..) rfl
theorem xy_solved (x z : Word32) : Function.Bijective fun p : Pair => xy (step (withWords setting x p.1 z p.2)) := by
  have solved := bijective_pair (x_by_y setting x z 0) fun y => y_by_w setting x y z
  convert solved using 2 with p
  exact Prod.ext (step_x_withWords ..) rfl
theorem zw_solved (x z : Word32) : Function.Bijective fun p : Pair => zw (step (withWords setting x p.1 z p.2)) := by
  have solved := bijective_swap (bijective_pair (z_by_w setting x 0 z) fun w => w_by_y setting x z w)
  convert solved using 2 with p
  exact Prod.ext (step_z_withWords ..) rfl
theorem yw_solved (x y : Word32) : Function.Bijective fun p : Pair => yw (step (withWords setting x y p.1 p.2)) := by
  have solved := bijective_swap (bijective_pair (y_by_w setting x y 0) fun w => w_by_z setting x y w)
  convert solved using 2 with p
  exact Prod.ext (step_y_withWords ..) rfl

end

/-- With the first and the third word of a state given, the other two words give any values of three pairs
    of words of the step, each values once. The second and the fourth word of the step are so reached
    from three halves of the state. -/
theorem halves_solved (setting : State) :
    (∀ x z, (Function.Bijective fun p : Pair => xz (step (withWords setting x p.1 z p.2))) ∧
        (Function.Bijective fun p : Pair => xy (step (withWords setting x p.1 z p.2))) ∧
          Function.Bijective fun p : Pair => zw (step (withWords setting x p.1 z p.2))) ∧
      (∀ x y, Function.Bijective fun p : Pair => yw (step (withWords setting x y p.1 p.2))) ∧
        (∀ y w, Function.Bijective fun p : Pair => yw (step (withWords setting p.1 y p.2 w))) ∧
          ∀ z w, Function.Bijective fun p : Pair => yw (step (withWords setting p.1 p.2 z w)) := by
  refine ⟨fun x z => ⟨xz_solved setting x z, xy_solved setting x z, zw_solved setting x z⟩, yw_solved setting,
    fun y w => ?_, fun z w => ?_⟩
  · have solved := bijective_pair (y_by_x setting y 0 w) fun x => w_by_z setting x y w
    convert solved using 2 with p
    exact Prod.ext (step_y_withWords ..) rfl
  · have solved := swap_bijective (bijective_swap (bijective_pair (w_by_y setting 0 z w) fun y => y_by_x setting y z w))
    convert solved using 2 with p
    exact Prod.ext rfl (step_w_withWords ..)

/-- The four words of a state whose step has given values in two of its words. -/
def Before (setting : State) (half : State → Pair) (values : Pair) : Type :=
  { q : Word32 × Word32 × Word32 × Word32 // half (step (withWords setting q.1 q.2.1 q.2.2.1 q.2.2.2)) = values }

/-- The four words of a state, sorted into those given and those solved for. -/
def firstAndThird : Pair × Pair ≃ Word32 × Word32 × Word32 × Word32 where
  toFun p := (p.1.1, p.2.1, p.1.2, p.2.2)
  invFun q := ((q.1, q.2.2.1), (q.2.1, q.2.2.2))
  left_inv _ := rfl
  right_inv _ := rfl
def firstAndSecond : Pair × Pair ≃ Word32 × Word32 × Word32 × Word32 where
  toFun p := (p.1.1, p.1.2, p.2.1, p.2.2)
  invFun q := ((q.1, q.2.1), (q.2.2.1, q.2.2.2))
  left_inv _ := rfl
  right_inv _ := rfl

theorem card_pair : Nat.card Pair = 2 ^ 64 := by
  rw [Nat.card_prod, card_word, ← Nat.pow_add]
/-- When half of the state gives the other half, every value has a state for each given half. -/
theorem card_before {setting : State} {half : State → Pair} (given : Pair × Pair ≃ Word32 × Word32 × Word32 × Word32)
    (solved : ∀ a, Function.Bijective fun b => half (step (withWords setting (given (a, b)).1 (given (a, b)).2.1
      (given (a, b)).2.2.1 (given (a, b)).2.2.2))) (values : Pair) : Nat.card (Before setting half values) = 2 ^ 64 := by
  have sorted : { p : Pair × Pair // half (step (withWords setting (given (p.1, p.2)).1 (given (p.1, p.2)).2.1
      (given (p.1, p.2)).2.2.1 (given (p.1, p.2)).2.2.2)) = values } ≃ Before setting half values :=
    given.subtypeEquiv fun _ => Iff.rfl
  rw [← Nat.card_congr sorted, card_fibre solved values, card_pair]

/-- Over all words of a state, with the parameters and the counter given, each value of the first and the
    third word of a step is reached from `2 ^ 64` of them; so is each of the first and the second, of the
    third and the fourth, and of the second and the fourth. -/
theorem halves_balanced (setting : State) (values : Pair) :
    Nat.card (Before setting xz values) = 2 ^ 64 ∧ Nat.card (Before setting xy values) = 2 ^ 64 ∧
      Nat.card (Before setting zw values) = 2 ^ 64 ∧ Nat.card (Before setting yw values) = 2 ^ 64 := by
  refine ⟨card_before firstAndThird (fun a => ?_) values, card_before firstAndThird (fun a => ?_) values,
    card_before firstAndThird (fun a => ?_) values, card_before firstAndSecond (fun a => ?_) values⟩
  · exact xz_solved setting a.1 a.2
  · exact xy_solved setting a.1 a.2
  · exact zw_solved setting a.1 a.2
  · exact yw_solved setting a.1 a.2

end Eahcm.Halves
