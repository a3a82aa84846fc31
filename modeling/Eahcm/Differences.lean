import Eahcm.Equations

/-!
Two states side by side. Each of the four equations of a step reads some words through maps
that lose nothing, rotations and the bit mixer, so a difference in one word, or in two words of
a pair that one equation tells apart, survives a step (`step_keeps_difference`). The other maps an
equation reads through do lose something: complementing `x` or `z` changes one word of the step
(`complement_differentials`).
-/
namespace Eahcm.Differences
open Eahcm.Types Eahcm.Arithmetic Eahcm.States Eahcm.Equations

/-- The counter and the four parameters are the same. -/
structure SameSetting (s s' : State) : Prop where
  counter : s'.counter = s.counter
  alpha : s'.alpha = s.alpha
  gamma : s'.gamma = s.gamma
  mu : s'.mu = s.mu
  sigma : s'.sigma = s.sigma

/-- The words that may differ are `x` and `y`, or `x` and `z`, or `y` and `w`, or `z` and `w`. -/
def DifferInPair (s s' : State) : Prop :=
  (s'.z = s.z ∧ s'.w = s.w) ∨ (s'.y = s.y ∧ s'.w = s.w) ∨ (s'.x = s.x ∧ s'.z = s.z) ∨ (s'.x = s.x ∧ s'.y = s.y)

/-- A sum and an exclusive or with the same words are undone. -/
theorem cancel {d a b b' : Word32} (same : d + (a ^^^ b) = d + (a ^^^ b')) : b = b' :=
  (BitVec.xor_right_inj a).mp ((BitVec.add_right_inj d).mp same)
theorem cancel_left {d a a' b : Word32} (same : d + (a ^^^ b) = d + (a' ^^^ b)) : a = a' :=
  (BitVec.xor_left_inj b).mp ((BitVec.add_right_inj d).mp same)

-- Of two states that a step takes to the same words, each equation recovers one word from the others it reads
section
variable {s s' : State}

theorem y_of_x (setting : SameSetting s s') (same : words (step s') = words (step s)) (x : s'.x = s.x)
    (z : s'.z = s.z) : s'.y = s.y := by
  simp only [words_step, Prod.mk.injEq, epsilon, setting.counter, setting.alpha, x, z] at same
  exact rol32_injective (by decide) (cancel ((BitVec.add_left_inj _).mp same.1))
theorem x_of_y (setting : SameSetting s s') (same : words (step s') = words (step s)) (y : s'.y = s.y)
    (w : s'.w = s.w) : s'.x = s.x := by
  simp only [words_step, Prod.mk.injEq, setting.gamma, y, w] at same
  exact rol32_injective (by decide) (cancel same.2.1)
theorem w_of_y (setting : SameSetting s s') (same : words (step s') = words (step s)) (y : s'.y = s.y)
    (x : s'.x = s.x) : s'.w = s.w := by
  simp only [words_step, Prod.mk.injEq, setting.gamma, y, x] at same
  exact R_injective (cancel_left same.2.1)
theorem w_of_z (setting : SameSetting s s') (same : words (step s') = words (step s)) (z : s'.z = s.z)
    (x : s'.x = s.x) : s'.w = s.w := by
  simp only [words_step, Prod.mk.injEq, setting.mu, z, x] at same
  exact rol32_injective (by decide) (cancel same.2.2.1)
theorem z_of_w (setting : SameSetting s s') (same : words (step s') = words (step s)) (w : s'.w = s.w)
    (y : s'.y = s.y) : s'.z = s.z := by
  simp only [words_step, Prod.mk.injEq, setting.sigma, w, y] at same
  exact rol32_injective (by decide) (cancel same.2.2.2)
theorem y_of_w (setting : SameSetting s s') (same : words (step s') = words (step s)) (w : s'.w = s.w)
    (z : s'.z = s.z) : s'.y = s.y := by
  simp only [words_step, Prod.mk.injEq, setting.sigma, w, z] at same
  exact R_injective (cancel_left same.2.2.2)

theorem words_eq (x : s'.x = s.x) (y : s'.y = s.y) (z : s'.z = s.z) (w : s'.w = s.w) : words s' = words s := by
  rw [words, words, x, y, z, w]

/-- A step keeps a difference in the words of one of the four pairs, whether or not it drifts. -/
theorem step_keeps_difference (setting : SameSetting s s') (pair : DifferInPair s s') (differ : words s' ≠ words s) :
    words (step s') ≠ words (step s) := by
  intro same
  apply differ
  rcases pair with ⟨z, w⟩ | ⟨y, w⟩ | ⟨x, z⟩ | ⟨x, y⟩
  · have y := y_of_w setting same w z
    exact words_eq (x_of_y setting same y w) y z w
  · exact words_eq (x_of_y setting same y w) y (z_of_w setting same w y) w
  · exact words_eq x (y_of_x setting same x z) z (w_of_z setting same z x)
  · have w := w_of_y setting same y x
    exact words_eq x y (z_of_w setting same w y) w

/-- One flipped bit in the all-zero state. -/
theorem step_keeps_difference_bit : words (step { w := 1 }) ≠ words (step {}) :=
  step_keeps_difference ⟨rfl, rfl, rfl, rfl, rfl⟩ (Or.inr (Or.inr (Or.inl ⟨rfl, rfl⟩))) (by decide)

/-- Without a drift, the counter and the parameters stay the same. -/
theorem step_sameSetting (setting : SameSetting s s') (stays : (s.counter + 1) &&& (driftInterval - 1) ≠ 0) :
    SameSetting (step s) (step s') := by
  have stays' : (s'.counter + 1) &&& (driftInterval - 1) ≠ 0 := by rwa [setting.counter]
  rcases stepWith_cases L s with ⟨drifts, _⟩ | ⟨_, result⟩
  · exact absurd drifts stays
  rcases stepWith_cases L s' with ⟨drifts, _⟩ | ⟨_, result'⟩
  · exact absurd drifts stays'
  rw [step, step, result, result']
  exact ⟨congrArg (· + 1) setting.counter, setting.alpha, setting.gamma, setting.mu, setting.sigma⟩

end

-- The logistic driver and the tent map do not tell a word from its complement, so of the equations
-- that read `x` or `z` only the one that reads it through a rotation sees the difference.
/-- The state with its first word complemented. -/
def notX (s : State) : State := { s with x := ~~~s.x }
/-- The state with its third word complemented. -/
def notZ (s : State) : State := { s with z := ~~~s.z }

theorem rol32_not_ne (v : Word32) {n : Nat} (amount : n ≤ 32) : rol32 (~~~v) n ≠ rol32 v n := by
  intro same
  exact BitVec.ne_not_self (show 0 < 32 by decide) (rol32_injective amount same).symm

theorem words_step_notX (s : State) : (step (notX s)).x = (step s).x ∧ (step (notX s)).y ≠ (step s).y ∧
    (step (notX s)).z = (step s).z ∧ (step (notX s)).w = (step s).w := by
  have first := words_step s
  have second := words_step (notX s)
  simp only [words, Prod.mk.injEq, epsilon, notX, L_not, F_not] at first second
  obtain ⟨x, y, z, w⟩ := first
  obtain ⟨x', y', z', w'⟩ := second
  refine ⟨x'.trans x.symm, fun same => ?_, z'.trans z.symm, w'.trans w.symm⟩
  exact rol32_not_ne s.x (by decide) (cancel (y'.symm.trans (same.trans y)))
theorem words_step_notZ (s : State) : (step (notZ s)).x = (step s).x ∧ (step (notZ s)).y = (step s).y ∧
    (step (notZ s)).z = (step s).z ∧ (step (notZ s)).w ≠ (step s).w := by
  have first := words_step s
  have second := words_step (notZ s)
  simp only [words, Prod.mk.injEq, epsilon, notZ, L_not, F_not] at first second
  obtain ⟨x, y, z, w⟩ := first
  obtain ⟨x', y', z', w'⟩ := second
  refine ⟨x'.trans x.symm, y'.trans y.symm, z'.trans z.symm, fun same => ?_⟩
  exact rol32_not_ne s.z (by decide) (cancel (w'.symm.trans (same.trans w)))

/-- With its first word complemented, a state comes out of a step different in the second word and,
    unless the step drifts, in nothing else; with its third word complemented, in the fourth. -/
theorem complement_differentials (s : State) :
    ((step (notX s)).x = (step s).x ∧ (step (notX s)).z = (step s).z ∧ (step (notX s)).w = (step s).w ∧
        (step (notX s)).counter = (step s).counter ∧ (step (notX s)).y ≠ (step s).y ∧
          ((s.counter + 1) &&& (driftInterval - 1) ≠ 0 → SameSetting (step s) (step (notX s)))) ∧
      (step (notZ s)).x = (step s).x ∧ (step (notZ s)).y = (step s).y ∧ (step (notZ s)).z = (step s).z ∧
        (step (notZ s)).counter = (step s).counter ∧ (step (notZ s)).w ≠ (step s).w ∧
          ((s.counter + 1) &&& (driftInterval - 1) ≠ 0 → SameSetting (step s) (step (notZ s))) := by
  constructor
  · obtain ⟨x, y, z, w⟩ := words_step_notX s
    have counter : (step (notX s)).counter = (step s).counter := by
      rw [step_counter, step_counter, notX]
    exact ⟨x, z, w, counter, y, step_sameSetting ⟨rfl, rfl, rfl, rfl, rfl⟩⟩
  · obtain ⟨x, y, z, w⟩ := words_step_notZ s
    have counter : (step (notZ s)).counter = (step s).counter := by
      rw [step_counter, step_counter, notZ]
    exact ⟨x, y, z, counter, w, step_sameSetting ⟨rfl, rfl, rfl, rfl, rfl⟩⟩

end Eahcm.Differences
