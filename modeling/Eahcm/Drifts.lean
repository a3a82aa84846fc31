import Eahcm.Clamps

/-!
What a drift forgets. A drift flips bits of the four parameters and clamps them. Of two parameters in
the regime it makes one only if they differ in just the nine bits of the drift mask, and these bits are
all alike once they are flipped (`drift_merges`). With one of its four words unknown it moves a
parameter into each place of the regime in eight or nine ways (`drift_bias`).
-/
namespace Eahcm.Drifts
open Eahcm.Types Eahcm.States Eahcm.XorLinear Eahcm.Equations Eahcm.Fibres Eahcm.Clamps

theorem getLsbD_driftMask : ∀ i < 32, driftMask.getLsbD i = decide (20 ≤ i ∧ i < 29) := by decide

/-- The bits of the mask are clear in a word that is low in its block of `2 ^ 29`. -/
theorem and_driftMask_eq_zero (b : Word32) : b &&& driftMask = 0 ↔ b.toNat % 2 ^ 29 < 2 ^ 20 := by
  have field : b &&& driftMask = (b.extractLsb' 20 9).setWidth 32 <<< 20 := by
    apply BitVec.eq_of_getLsbD_eq
    intro i inside
    rw [BitVec.getLsbD_and, getLsbD_driftMask i inside, BitVec.getLsbD_shiftLeft, BitVec.getLsbD_setWidth,
      BitVec.getLsbD_extractLsb']
    by_cases low : i < 20
    · simp [low, Nat.not_le.mpr low]
    · have place : 20 + (i - 20) = i := by omega
      by_cases high : i < 29
      · have within : i - 20 < 9 := by omega
        have fits : i - 20 < 32 := by omega
        simp [low, high, place, within, fits, inside, Nat.not_lt.mp low]
      · have beyond : ¬ i - 20 < 9 := by omega
        simp [high, beyond]
  have value : (b &&& driftMask).toNat = b.toNat / 2 ^ 20 % 2 ^ 9 * 2 ^ 20 := by
    rw [field, BitVec.toNat_shiftLeft, BitVec.toNat_setWidth, BitVec.extractLsb'_toNat, Nat.shiftRight_eq_div_pow,
      Nat.shiftLeft_eq]
    omega
  rw [← BitVec.toNat_inj, value]
  change _ = 0 ↔ _
  omega

/-- Bits that are clear are flipped by adding them. -/
theorem xor_eq_add {w : Nat} {a m : BitVec w} (clear : a &&& m = 0#w) : a ^^^ m = a + m := by
  rw [BitVec.add_eq_or_of_and_eq_zero a m clear]
  apply BitVec.eq_of_getLsbD_eq
  intro i _
  have bit := congrArg (·.getLsbD i) clear
  simp only [BitVec.getLsbD_and, BitVec.getLsbD_zero] at bit
  rw [BitVec.getLsbD_xor, BitVec.getLsbD_or]
  cases ha : a.getLsbD i <;> cases hm : m.getLsbD i <;> simp_all

/-- In one block of `2 ^ 29` the remainder tells words apart, but for two that are the mask apart. -/
theorem remainder_eq_iff {a b : Word32} (block : a.toNat / 2 ^ 29 = b.toNat / 2 ^ 29) :
    a.toNat % 0x1FF00000 = b.toNat % 0x1FF00000 ↔
      a = b ∨ a.toNat = b.toNat + 0x1FF00000 ∨ b.toNat = a.toNat + 0x1FF00000 := by
  rw [← BitVec.toNat_inj]
  omega
/-- Words of one block are the mask apart when the upper one is the lower with the bits of the mask set. -/
theorem apart_iff {a b : Word32} (block : a.toNat / 2 ^ 29 = b.toNat / 2 ^ 29) :
    a.toNat = b.toNat + 0x1FF00000 ↔ b &&& driftMask = 0 ∧ a ^^^ b = driftMask := by
  have value (clear : b &&& driftMask = 0) : (b ^^^ driftMask).toNat = b.toNat + 0x1FF00000 := by
    rw [xor_eq_add clear, BitVec.toNat_add_of_and_eq_zero clear, driftMask_eq]
  constructor
  · intro apart
    have clear := (and_driftMask_eq_zero b).mpr (by omega)
    have flipped : a = b ^^^ driftMask := BitVec.eq_of_toNat_eq (apart.trans (value clear).symm)
    refine ⟨clear, ?_⟩
    rw [flipped, BitVec.xor_comm b, BitVec.xor_assoc, BitVec.xor_self, BitVec.xor_zero]
  · rintro ⟨clear, differ⟩
    rw [← value clear, ← differ, BitVec.xor_comm a, ← BitVec.xor_assoc, BitVec.xor_self, BitVec.zero_xor]

/-- Flipping any bits keeps parameters of the regime in one block. -/
theorem block_eq {p q : Word32} (inside : ParamOk p) (inside' : ParamOk q) (r : Word32) :
    (p ^^^ r).toNat / 2 ^ 29 = (q ^^^ r).toNat / 2 ^ 29 := by
  obtain ⟨low, _⟩ := (paramOk_iff p).mp inside
  obtain ⟨low', _⟩ := (paramOk_iff q).mp inside'
  have top : p >>> 29 = q >>> 29 := by
    apply BitVec.eq_of_toNat_eq
    rw [BitVec.toNat_ushiftRight, BitVec.toNat_ushiftRight, Nat.shiftRight_eq_div_pow, Nat.shiftRight_eq_div_pow]
    omega
  have tops : (p ^^^ r) >>> 29 = (q ^^^ r) >>> 29 := by
    rw [BitVec.ushiftRight_xor_distrib, BitVec.ushiftRight_xor_distrib, top]
  rw [← Nat.shiftRight_eq_div_pow, ← Nat.shiftRight_eq_div_pow, ← BitVec.toNat_ushiftRight, tops,
    BitVec.toNat_ushiftRight]

/-- Two parameters that the same flips and a clamp make one. -/
def Merged (p q r : Word32) : Prop :=
  p = q ∨ p ^^^ q = driftMask ∧ ((p ^^^ r) &&& driftMask = 0 ∨ (p ^^^ r) &&& driftMask = driftMask)

theorem clampParam_eq_iff {a b : Word32} :
    clampParam a = clampParam b ↔ a.toNat % 0x1FF00000 = b.toNat % 0x1FF00000 := by
  constructor
  · intro same
    rw [← above_clampParam, ← above_clampParam, same]
  · intro same
    exact eq_of_above (clampParam_ok a) (clampParam_ok b) (by rw [above_clampParam, above_clampParam, same])

theorem clampParam_xor_eq_iff {p q : Word32} (inside : ParamOk p) (inside' : ParamOk q) (r : Word32) :
    clampParam (p ^^^ r) = clampParam (q ^^^ r) ↔ Merged p q r := by
  have block := block_eq inside inside' r
  have difference : (p ^^^ r) ^^^ (q ^^^ r) = p ^^^ q := by
    rw [BitVec.xor_comm q r, BitVec.xor_assoc, ← BitVec.xor_assoc r r q, BitVec.xor_self, BitVec.zero_xor]
  have other : (q ^^^ r) ^^^ (p ^^^ r) = p ^^^ q := by
    rw [BitVec.xor_comm (q ^^^ r), difference]
  -- with the bits of the mask flipped they are clear in the one word when they are set in the other
  have flipped (differ : p ^^^ q = driftMask) :
      (q ^^^ r) &&& driftMask = 0 ↔ (p ^^^ r) &&& driftMask = driftMask := by
    have parts : (q ^^^ r) &&& driftMask = ((p ^^^ r) &&& driftMask) ^^^ driftMask := by
      have word : q ^^^ r = (p ^^^ r) ^^^ driftMask := by
        rw [← differ, ← difference, ← BitVec.xor_assoc, BitVec.xor_self, BitVec.zero_xor]
      have split := Additive.and driftMask (p ^^^ r) driftMask
      simp only [BitVec.and_self] at split
      rw [word, split]
    rw [parts]
    exact BitVec.xor_eq_zero_iff
  rw [clampParam_eq_iff, remainder_eq_iff block, apart_iff block, apart_iff block.symm, difference, other,
    BitVec.xor_left_inj, Merged]
  constructor
  · rintro (same | ⟨clear, differ⟩ | ⟨clear, differ⟩)
    · exact Or.inl same
    · exact Or.inr ⟨differ, Or.inr ((flipped differ).mp clear)⟩
    · exact Or.inr ⟨differ, Or.inl clear⟩
  · rintro (same | ⟨differ, clear | set⟩)
    · exact Or.inl same
    · exact Or.inr (Or.inr ⟨clear, differ⟩)
    · exact Or.inr (Or.inl ⟨(flipped differ).mpr set, differ⟩)

/-- Two states in the regime that drift by the same words have a parameter in common afterwards only if
    they had it before, or it differs in exactly the nine bits of the drift mask and the rotated fold
    makes these bits all equal. -/
theorem drift_merges {s s' : State} (inside : InRegime s) (inside' : InRegime s') (x y z w : Word32) :
    ((driftParameters s x y z w).alpha = (driftParameters s' x y z w).alpha ↔
        Merged s.alpha s'.alpha (rol32 (x ^^^ y ^^^ z ^^^ w) rotDriftAlpha)) ∧
      ((driftParameters s x y z w).gamma = (driftParameters s' x y z w).gamma ↔
        Merged s.gamma s'.gamma (rol32 (x ^^^ y ^^^ z ^^^ w) rotDriftGamma)) ∧
      ((driftParameters s x y z w).mu = (driftParameters s' x y z w).mu ↔
        Merged s.mu s'.mu (rol32 (x ^^^ y ^^^ z ^^^ w) rotDriftMu)) ∧
      ((driftParameters s x y z w).sigma = (driftParameters s' x y z w).sigma ↔
        Merged s.sigma s'.sigma (rol32 (x ^^^ y ^^^ z ^^^ w) rotDriftSigma)) :=
  ⟨clampParam_xor_eq_iff inside.alpha inside'.alpha _, clampParam_xor_eq_iff inside.gamma inside'.gamma _,
    clampParam_xor_eq_iff inside.mu inside'.mu _, clampParam_xor_eq_iff inside.sigma inside'.sigma _⟩

/-- Two parameters that differ in the nine bits, and a fold that clears these bits in the first of them. -/
theorem drift_merges_nine : ∃ s s', InRegime s ∧ InRegime s' ∧ s.alpha = 0xE0100000 ∧ s'.alpha = 0xFFE00000 ∧
    (driftParameters s 0x00020000 0 0 0).alpha = (driftParameters s' 0x00020000 0 0 0).alpha := by
  have inside : InRegime { alpha := 0xE0100000, gamma := paramFloor, mu := paramFloor, sigma := paramFloor } := by
    decide
  have inside' : InRegime { alpha := 0xFFE00000, gamma := paramFloor, mu := paramFloor, sigma := paramFloor } := by
    decide
  exact ⟨_, _, inside, inside', rfl, rfl, (drift_merges inside inside' 0x00020000 0 0 0).1.mpr (Or.inr (by decide))⟩

/-- In how many ways a drift ends with a parameter, of the ways for one unknown word. -/
def ways (q : Word32) : Nat := if ¬ ParamOk q then 0 else if above q < 0x800000 then 9 else 8

/-- A parameter moved by a fold of which one word runs through all words. -/
theorem card_moved (p known q : Word32) {n : Nat} (amount : n ≤ 32) :
    Nat.card { w : Word32 // clampParam (p ^^^ rol32 (known ^^^ w) n) = q } = ways q := by
  rw [ways]
  by_cases inside : ParamOk q
  · have moved : Function.Bijective fun w : Word32 => p ^^^ rol32 (known ^^^ w) n :=
      Finite.injective_iff_bijective.mp fun _ _ same =>
        (BitVec.xor_right_inj known).mp (rol32_injective amount ((BitVec.xor_right_inj p).mp same))
    have words : { w : Word32 // clampParam (p ^^^ rol32 (known ^^^ w) n) = q } ≃
        { raw : Word32 // raw.toNat % 0x1FF00000 = above q } :=
      (Equiv.ofBijective _ moved).subtypeEquiv fun w => clampParam_eq_place inside _
    rw [if_neg (not_not_intro inside), Nat.card_congr words, card_place (above_lt inside)]
  · rw [if_pos inside, Nat.card_eq_zero]
    refine Or.inl ⟨fun w => inside ?_⟩
    rw [← w.property]
    exact clampParam_ok _

/-- The drift by four words, which the source passes one by one. -/
def driftBy (s : State) (words : Fin 4 → Word32) : State := driftParameters s (words 0) (words 1) (words 2) (words 3)

/-- The fold is symmetric: whichever word is unknown, the others make up one that is known. -/
theorem fold_update (known : Fin 4 → Word32) (unknown : Fin 4) : ∃ rest, ∀ v,
    Function.update known unknown v 0 ^^^ Function.update known unknown v 1 ^^^ Function.update known unknown v 2 ^^^
      Function.update known unknown v 3 = rest ^^^ v := by
  match unknown with
  | 0 =>
    refine ⟨known 1 ^^^ known 2 ^^^ known 3, fun v => ?_⟩
    simp only [Function.update_apply, Fin.isValue, Fin.reduceEq, if_true, if_false]
    ac_rfl
  | 1 =>
    refine ⟨known 0 ^^^ known 2 ^^^ known 3, fun v => ?_⟩
    simp only [Function.update_apply, Fin.isValue, Fin.reduceEq, if_true, if_false]
    ac_rfl
  | 2 =>
    refine ⟨known 0 ^^^ known 1 ^^^ known 3, fun v => ?_⟩
    simp only [Function.update_apply, Fin.isValue, Fin.reduceEq, if_true, if_false]
    ac_rfl
  | 3 => exact ⟨known 0 ^^^ known 1 ^^^ known 2, fun v => rfl⟩

/-- A drift with any three of its words known and the fourth any word: nine of these words move a parameter
    into each of the lowest places of the regime and eight into each of the others, for each of the four
    parameters and whatever it was before. -/
theorem drift_bias (s : State) (known : Fin 4 → Word32) (unknown : Fin 4) (q : Word32) :
    Nat.card { v : Word32 // (driftBy s (Function.update known unknown v)).alpha = q } = ways q ∧
      Nat.card { v : Word32 // (driftBy s (Function.update known unknown v)).gamma = q } = ways q ∧
        Nat.card { v : Word32 // (driftBy s (Function.update known unknown v)).mu = q } = ways q ∧
          Nat.card { v : Word32 // (driftBy s (Function.update known unknown v)).sigma = q } = ways q := by
  obtain ⟨rest, fold⟩ := fold_update known unknown
  simp only [driftBy, driftParameters, fold]
  exact ⟨card_moved s.alpha rest q (by decide), card_moved s.gamma rest q (by decide),
    card_moved s.mu rest q (by decide), card_moved s.sigma rest q (by decide)⟩

end Eahcm.Drifts
