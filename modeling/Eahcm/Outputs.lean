import Mathlib.Data.BitVec
import Mathlib.SetTheory.Cardinal.Finite
import Eahcm.States

/-!
What a word of keystream tells of the state it comes from. Each half of the word is a sum of two
state words masked with a third, so it can be solved for one of the words of the sum: the first
two words of the state are free and the word of keystream gives the other two
(`extract_eq_iff`, `extract_balanced`).
-/
namespace Eahcm.Outputs
open Eahcm.Types Eahcm.States

/-- The upper half of a word of keystream. -/
def outHi (o : Word64) : Word32 := (o >>> 32).setWidth 32
/-- The lower half of a word of keystream. -/
def outLo (o : Word64) : Word32 := o.setWidth 32
/-- The state with other state words. -/
def withWords (setting : State) (x y z w : Word32) : State := { setting with x := x, y := y, z := z, w := w }

theorem outHi_append (hi lo : Word32) : outHi (hi ++ lo) = hi := by
  apply BitVec.eq_of_getLsbD_eq
  intro i inside
  have place : 32 + i - 32 = i := by omega
  rw [outHi, BitVec.getLsbD_setWidth, BitVec.getLsbD_ushiftRight, BitVec.getLsbD_append, if_neg (by omega), place]
  simp [inside]
theorem outLo_append (hi lo : Word32) : outLo (hi ++ lo) = lo := BitVec.setWidth_append_eq_right
theorem append_halves (o : Word64) : outHi o ++ outLo o = o := by
  apply BitVec.eq_of_getLsbD_eq
  intro i inside
  rw [BitVec.getLsbD_append]
  by_cases low : i < 32
  · rw [if_pos low, outLo, BitVec.getLsbD_setWidth]
    simp [low]
  · have place : 32 + (i - 32) = i := by omega
    have fits : i - 32 < 32 := by omega
    rw [if_neg low, outHi, BitVec.getLsbD_setWidth, BitVec.getLsbD_ushiftRight, place]
    simp [fits]

/-- Two words put together are the halves of what they make. -/
theorem join_eq_iff (hi lo : Word32) (o : Word64) :
    (hi.setWidth 64 <<< 32) ||| lo.setWidth 64 = o ↔ hi = outHi o ∧ lo = outLo o := by
  have join : (hi.setWidth 64 <<< 32) ||| lo.setWidth 64 = hi ++ lo :=
    BitVec.setWidth_append_eq_shiftLeft_setWidth_or.symm.trans (BitVec.setWidth_eq (hi ++ lo))
  rw [join]
  constructor
  · rintro rfl
    exact ⟨(outHi_append hi lo).symm, (outLo_append hi lo).symm⟩
  · rintro ⟨rfl, rfl⟩
    exact append_halves o

/-- A masked sum is solved for its second term. -/
theorem masked_sum_eq_iff (a b mask half : Word32) : (a + b) ^^^ mask = half ↔ b = (half ^^^ mask) - a := by
  rw [BitVec.eq_sub_iff_add_eq, BitVec.add_comm b a]
  constructor
  · rintro rfl
    rw [BitVec.xor_assoc, BitVec.xor_self, BitVec.xor_zero]
  · intro sum
    rw [sum, BitVec.xor_assoc, BitVec.xor_self, BitVec.xor_zero]

/-- The third word of a state from its first two and its word of keystream. -/
def zOf (o : Word64) (x y : Word32) : Word32 := (outHi o ^^^ rol32 y rotExtract) - x
/-- The fourth word of a state from its first two and its word of keystream. -/
def wOf (o : Word64) (x y : Word32) : Word32 := (outLo o ^^^ rol32 x rotExtract) - y

/-- A state gives a word of keystream when its third and fourth words are those that its first two
    and that word require. -/
theorem extract_eq_iff (s : State) (o : Word64) : extract s = o ↔ s.z = zOf o s.x s.y ∧ s.w = wOf o s.x s.y := by
  simp only [extract]
  rw [join_eq_iff, masked_sum_eq_iff, masked_sum_eq_iff]
  rfl

/-- The four words of a state that gives a word of keystream, with the parameters and the counter
    given. -/
def Candidate (setting : State) (o : Word64) : Type :=
  { q : Word32 × Word32 × Word32 × Word32 // extract (withWords setting q.1 q.2.1 q.2.2.1 q.2.2.2) = o }

/-- A candidate is determined by its first two words, which are free. -/
def candidates (setting : State) (o : Word64) : Candidate setting o ≃ Word32 × Word32 where
  toFun c := (c.val.1, c.val.2.1)
  invFun p := ⟨(p.1, p.2, zOf o p.1 p.2, wOf o p.1 p.2), (extract_eq_iff _ _).mpr ⟨rfl, rfl⟩⟩
  left_inv := by
    rintro ⟨⟨x, y, z, w⟩, gives⟩
    obtain ⟨third, fourth⟩ := (extract_eq_iff _ _).mp gives
    apply Subtype.ext
    exact Prod.ext rfl (Prod.ext rfl (Prod.ext third.symm fourth.symm))
  right_inv _ := rfl

theorem card_word (n : Nat) : Nat.card (BitVec n) = 2 ^ n := by
  rw [Nat.card_congr BitVec.equivFin.toEquiv, Nat.card_fin]
theorem card_candidate (setting : State) (o : Word64) : Nat.card (Candidate setting o) = 2 ^ 64 := by
  rw [Nat.card_congr (candidates setting o), Nat.card_prod, card_word, ← Nat.pow_add]

/-- Every word of keystream leaves the first two words of the state free and determines the other
    two, whatever the parameters and the counter, so `2 ^ 64` quadruples of words give it. -/
theorem extract_balanced (o : Word64) :
    (∀ x y, ∃ z w, ∀ (setting : State) (z' w' : Word32),
        extract (withWords setting x y z' w') = o ↔ z' = z ∧ w' = w) ∧
      (∀ setting, Nat.card (Candidate setting o) = 2 ^ 64) ∧
        ∀ setting x y, ∃ c : Candidate setting o, c.val.1 = x ∧ c.val.2.1 = y := by
  refine ⟨fun x y => ?_, fun setting => card_candidate setting o, fun setting x y => ?_⟩
  · refine ⟨zOf o x y, wOf o x y, fun setting z' w' => ?_⟩
    exact extract_eq_iff (withWords setting x y z' w') o
  · exact ⟨(candidates setting o).symm (x, y), rfl, rfl⟩

end Eahcm.Outputs
