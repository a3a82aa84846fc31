import Eahcm.States
import Eahcm.XorLinear

/-!
The equations of a step and what they are made of: rotations, which lose nothing, the bit mixer,
which respects exclusive or and, despite the shift in it, is a permutation (`R_permutation`), and
the logistic driver and the tent map, which do not tell a word from its complement.
-/
namespace Eahcm.Equations
open Eahcm.Types Eahcm.Arithmetic Eahcm.States Eahcm.XorLinear

theorem getLsbD_rol32 (x : Word32) {n i : Nat} (amount : n ≤ 32) (inside : i < 32) :
    (rol32 x n).getLsbD i = if i < n then x.getLsbD (32 - n + i) else x.getLsbD (i - n) := by
  simp only [rol32, BitVec.getLsbD_or, BitVec.getLsbD_shiftLeft, BitVec.getLsbD_ushiftRight, inside, decide_true,
    Bool.true_and]
  by_cases low : i < n
  · simp [low]
  · rw [BitVec.getLsbD_of_ge x (32 - n + i) (by omega)]
    simp [low]

theorem rol32_additive {n : Nat} (amount : n ≤ 32) : Additive fun x => rol32 x n := by
  intro a b
  apply BitVec.eq_of_getLsbD_eq
  intro i inside
  rw [BitVec.getLsbD_xor, getLsbD_rol32 _ amount inside, getLsbD_rol32 _ amount inside, getLsbD_rol32 _ amount inside]
  split <;> exact BitVec.getLsbD_xor

/-- Rotating on by what is missing to a whole turn gives the word back. -/
theorem rol32_rol32 (x : Word32) {n : Nat} (amount : n ≤ 32) : rol32 (rol32 x n) (32 - n) = x := by
  apply BitVec.eq_of_getLsbD_eq
  intro i inside
  rw [getLsbD_rol32 _ (by omega) inside]
  by_cases low : i < 32 - n
  · rw [if_pos low, getLsbD_rol32 _ amount (by omega), if_neg (by omega)]
    congr 1
    omega
  · rw [if_neg low, getLsbD_rol32 _ amount (by omega), if_pos (by omega)]
    congr 1
    omega
theorem rol32_injective {n : Nat} (amount : n ≤ 32) : Function.Injective fun x => rol32 x n := by
  intro a b same
  rw [← rol32_rol32 a amount, ← rol32_rol32 b amount]
  exact congrArg (rol32 · (32 - n)) same

theorem R_additive : Additive R :=
  ((rol32_additive (by decide)).xor (rol32_additive (by decide))).xor (Additive.ushiftRight 3)

/-- What undoes the three terms of the mixer, were the shift a rotation. -/
def unmix (y : Word32) : Word32 := rol32 y 15 ^^^ rol32 y 25 ^^^ rol32 y 31
/-- The inverse of the bit mixer. -/
def Rinv (y : Word32) : Word32 := unmix y ^^^ unmix ((unmix y &&& 7) <<< 29)

theorem unmix_additive : Additive unmix :=
  ((rol32_additive (by decide)).xor (rol32_additive (by decide))).xor (rol32_additive (by decide))
theorem Rinv_additive : Additive Rinv :=
  unmix_additive.xor (unmix_additive.comp ((Additive.shiftLeft 29).comp ((Additive.and 7).comp unmix_additive)))

theorem Rinv_R (w : Word32) : Rinv (R w) = w := by
  have bits : ∀ i < 32, Rinv (R (BitVec.twoPow 32 i)) = BitVec.twoPow 32 i := by decide
  exact congrFun ((Rinv_additive.comp R_additive).ext_twoPow Additive.id bits) w
/-- The bit mixer takes different words to different words. -/
theorem R_injective : Function.Injective R := Function.LeftInverse.injective Rinv_R

theorem R_Rinv (y : Word32) : R (Rinv y) = y := by
  have bits : ∀ i < 32, R (Rinv (BitVec.twoPow 32 i)) = BitVec.twoPow 32 i := by decide
  exact congrFun ((R_additive.comp Rinv_additive).ext_twoPow Additive.id bits) y

/-- The bit mixer permutes the words: the two rotations make up for the three bits its shift
    drops. -/
theorem R_permutation :
    (∀ w, Rinv (R w) = w ∧ R (Rinv w) = w) ∧ Function.Injective R ∧ Function.Surjective R :=
  ⟨fun w => ⟨Rinv_R w, R_Rinv w⟩, R_injective, Function.RightInverse.surjective R_Rinv⟩

/-- The logistic driver is symmetric about the middle of the words. -/
theorem L_not (v p : Word32) : L (~~~v) p = L v p := by
  have product : vn (~~~v) = vn v := by rw [vn, vn, BitVec.not_not, BitVec.mul_comm]
  rw [L, L, full, full, product]

theorem sign_iff (v : Word32) : (v &&& 0x80000000 ≠ 0) ↔ v.getLsbD 31 = true := by
  have bit : v &&& 0x80000000 = if v.getLsbD 31 then 0x80000000 else 0 := BitVec.and_twoPow v 31
  rw [bit]
  cases v.getLsbD 31 <;> decide

/-- The tent map folds a word and its complement onto the same word. -/
theorem F_not (v : Word32) : F (~~~v) = F v := by
  have flip (a : Word32) : a ^^^ 0xFFFFFFFF#32 = ~~~a := BitVec.xor_allOnes
  have sign : (~~~v).getLsbD 31 = !v.getLsbD 31 := by simp
  have folded : (~~~v ^^^ if ~~~v &&& 0x80000000 ≠ 0 then 0xFFFFFFFF else 0) =
      v ^^^ if v &&& 0x80000000 ≠ 0 then 0xFFFFFFFF else 0 := by
    simp only [sign_iff, sign]
    cases v.getLsbD 31
    · simp [flip]
    · simp [flip]
  simp only [F, folded]

/-- The four state words. -/
def words (s : State) : Word32 × Word32 × Word32 × Word32 := (s.x, s.y, s.z, s.w)
/-- What a step adds to the first word. -/
def epsilon (s : State) : Word32 := rol32 s.counter rotCtrEps ^^^ epsilonConst

/-- The four equations of a step; no drift touches the words. -/
theorem words_step (s : State) : words (step s) =
    (L s.x s.alpha + (F s.z ^^^ rol32 s.y rotYInX) + epsilon s, L s.y s.gamma + (R s.w ^^^ rol32 s.x rotXInY),
      L s.z s.mu + (F s.x ^^^ rol32 s.w rotWInZ), L s.w s.sigma + (R s.y ^^^ rol32 s.z rotZInW)) := by
  rcases stepWith_cases L s with ⟨_, result⟩ | ⟨_, result⟩ <;> rw [step, result] <;> rfl

end Eahcm.Equations
