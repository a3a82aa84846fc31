import Eahcm.Differences
import Eahcm.Outputs

/-!
What a difference in one word of a state does. The tent map takes two words to one, a word and its
complement (`F_fibres`); which words of a step then differ for certain and which agree is a table
(`one_word_spreads`). A word of keystream reads its four words through sums and rotations, and shows
any difference in one of them; together, complementing the first word of a state changes both halves
of the next word of keystream, complementing the third its lower half alone (`complement_words`).
-/
namespace Eahcm.Influences
open Eahcm.Types Eahcm.Arithmetic Eahcm.States Eahcm.Equations Eahcm.Differences Eahcm.Outputs

/-- The distance of a word to the nearer end of the words. -/
def toEnd (v : Word32) : Nat := min v.toNat (2 ^ 32 - 1 - v.toNat)

theorem toEnd_lt (v : Word32) : toEnd v < 2 ^ 31 := by
  rw [toEnd]
  omega

/-- The tent map doubles the distance to the nearer end. -/
theorem toNat_F (v : Word32) : (F v).toNat = if toEnd v = 0 then phiFrac.toNat else 2 * toEnd v := by
  have flip (a : Word32) : a ^^^ 0xFFFFFFFF#32 = ~~~a := BitVec.xor_allOnes
  have top : v.getLsbD 31 = decide (2 ^ 31 ≤ v.toNat) := BitVec.msb_eq_decide v
  have folded : (v ^^^ if v &&& 0x80000000 ≠ 0 then 0xFFFFFFFF else 0).toNat = toEnd v := by
    simp only [sign_iff, top, decide_eq_true_eq]
    rw [toEnd]
    split
    · next high =>
      change (v ^^^ 0xFFFFFFFF#32).toNat = _
      rw [flip, BitVec.toNat_not]
      omega
    · next low =>
      change (v ^^^ 0#32).toNat = _
      rw [BitVec.xor_zero]
      omega
  have doubled : ((v ^^^ if v &&& 0x80000000 ≠ 0 then 0xFFFFFFFF else 0) <<< 1).toNat = 2 * toEnd v := by
    have small := toEnd_lt v
    rw [BitVec.toNat_shiftLeft, folded, Nat.shiftLeft_eq]
    omega
  have zero : (v ^^^ if v &&& 0x80000000 ≠ 0 then 0xFFFFFFFF else 0) <<< 1 = 0 ↔ toEnd v = 0 := by
    rw [← BitVec.toNat_inj, doubled]
    change 2 * toEnd v = 0 ↔ _
    omega
  simp only [F]
  by_cases ends : toEnd v = 0
  · rw [if_pos (zero.mpr ends), if_pos ends, zero.mpr ends]
    rfl
  · rw [if_neg (mt zero.mp ends), if_neg ends, doubled]

theorem toEnd_eq_iff (v v' : Word32) : toEnd v = toEnd v' ↔ v' = v ∨ v' = ~~~v := by
  rw [← BitVec.toNat_inj, ← BitVec.toNat_inj, BitVec.toNat_not, toEnd, toEnd]
  omega
theorem F_eq_iff (v v' : Word32) : F v = F v' ↔ v' = v ∨ v' = ~~~v := by
  have odd : phiFrac.toNat % 2 = 1 := rfl
  rw [← toEnd_eq_iff, ← BitVec.toNat_inj, toNat_F, toNat_F]
  split <;> split <;> omega

/-- The tent map takes exactly a word and its complement to one word, and what it reaches is the even
    words but zero, and one odd word in its place. -/
theorem F_fibres :
    (∀ v v', F v = F v' ↔ v' = v ∨ v' = ~~~v) ∧
      ∀ u, (∃ v, F v = u) ↔ u = phiFrac ∨ u ≠ 0 ∧ u.toNat % 2 = 0 := by
  refine ⟨F_eq_iff, fun u => ⟨?_, ?_⟩⟩
  · rintro ⟨v, rfl⟩
    have small := toEnd_lt v
    have value := toNat_F v
    by_cases ends : toEnd v = 0
    · rw [if_pos ends] at value
      exact Or.inl (BitVec.eq_of_toNat_eq value)
    · rw [if_neg ends] at value
      refine Or.inr ⟨?_, by omega⟩
      intro zero
      rw [zero] at value
      change 0 = _ at value
      omega
  · rintro (rfl | ⟨nonzero, even⟩)
    · exact ⟨0, rfl⟩
    · have below := u.isLt
      have positive : u.toNat ≠ 0 := fun zero => nonzero (BitVec.eq_of_toNat_eq zero)
      refine ⟨BitVec.ofNat 32 (u.toNat / 2), BitVec.eq_of_toNat_eq ?_⟩
      have half : (BitVec.ofNat 32 (u.toNat / 2)).toNat = u.toNat / 2 := by
        rw [BitVec.toNat_ofNat]
        omega
      rw [toNat_F, toEnd, half]
      split <;> omega

/-- The word is one of the two ends of the words. -/
def AtEnd (v : Word32) : Prop := v = 0 ∨ v = 0xFFFFFFFF
/-- Modulo `2 ^ 32 - 1` the word is the number or its negative. -/
def UpToSign (c : Nat) (v : Word32) : Prop := v.toNat % 4294967295 = c % 4294967295 ∨ (v.toNat + c) % 4294967295 = 0

theorem atEnd_iff (v : Word32) : AtEnd v ↔ v.toNat % 4294967295 = 0 := by
  have below := v.isLt
  have ends : AtEnd v ↔ v.toNat = 0 ∨ v.toNat = 4294967295 := by
    rw [AtEnd, ← BitVec.toNat_inj, ← BitVec.toNat_inj]
    rfl
  rw [ends]
  omega
theorem UpToSign.not_atEnd {c : Nat} {v : Word32} (sign : UpToSign c v) (nonzero : c % 4294967295 ≠ 0) : ¬ AtEnd v := by
  rw [atEnd_iff]
  rcases sign with same | negative <;> omega
/-- Off the ends the tent map doubles, up to the sign. -/
theorem UpToSign.F {c : Nat} {v : Word32} (sign : UpToSign c v) (off : ¬ AtEnd v) : UpToSign (2 * c) (F v) := by
  have below := v.isLt
  have inner := mt (atEnd_iff v).mpr off
  have value : (Arithmetic.F v).toNat = 2 * v.toNat ∨ (Arithmetic.F v).toNat + 2 * v.toNat = 2 * 4294967295 := by
    rw [toNat_F, toEnd, if_neg (by omega)]
    omega
  rcases sign with same | negative <;> rcases value with value | value <;> simp only [UpToSign] <;> omega
theorem double_mod_ne {c : Nat} (nonzero : c % 4294967295 ≠ 0) : 2 * c % 4294967295 ≠ 0 := by
  intro zero
  have divides : 4294967295 ∣ 2 * c := Nat.dvd_of_mod_eq_zero zero
  have coprime : Nat.Coprime 4294967295 2 := by decide
  exact nonzero (Nat.mod_eq_zero_of_dvd (coprime.dvd_of_dvd_mul_left divides))
theorem UpToSign.iterate {v : Word32} (off : ¬ AtEnd v) (k : Nat) :
    2 ^ k * v.toNat % 4294967295 ≠ 0 ∧ UpToSign (2 ^ k * v.toNat) (Arithmetic.F^[k] v) := by
  induction k with
  | zero =>
    rw [Nat.pow_zero, Nat.one_mul]
    exact ⟨mt (atEnd_iff v).mpr off, Or.inl rfl⟩
  | succ k ih =>
    obtain ⟨nonzero, sign⟩ := ih
    rw [Nat.pow_succ', Nat.mul_assoc, Function.iterate_succ_apply']
    exact ⟨double_mod_ne nonzero, sign.F (sign.not_atEnd nonzero)⟩

theorem even_F {v : Word32} (off : ¬ AtEnd v) : (F v).toNat % 2 = 0 := by
  have inner := mt (atEnd_iff v).mpr off
  rw [toNat_F, toEnd, if_neg (by omega)]
  omega
theorem shift_mod (c : Nat) : 2 ^ 32 * c % 4294967295 = c % 4294967295 := by
  have around : 2 ^ 32 * c = c + 4294967295 * c := by omega
  rw [around, Nat.add_mul_mod_self_left]
theorem inside_of_not_atEnd {v : Word32} (off : ¬ AtEnd v) : 0 < v.toNat ∧ v.toNat < 4294967295 := by
  have below := v.isLt
  have inner := mt (atEnd_iff v).mpr off
  omega
/-- Doubling 32 times is doing nothing modulo `2 ^ 32 - 1`, and of a word and its negative one is odd. -/
theorem eq_of_upToSign {u u' : Word32} (off : ¬ AtEnd u) (even : u.toNat % 2 = 0) (even' : u'.toNat % 2 = 0)
    (sign : UpToSign (2 ^ 32 * u.toNat) u') : u' = u := by
  have off' : ¬ AtEnd u' := sign.not_atEnd (by rw [shift_mod]; exact mt (atEnd_iff u).mpr off)
  obtain ⟨low, high⟩ := inside_of_not_atEnd off
  obtain ⟨low', high'⟩ := inside_of_not_atEnd off'
  apply BitVec.eq_of_toNat_eq
  rcases sign with same | negative
  · rw [shift_mod, Nat.mod_eq_of_lt high, Nat.mod_eq_of_lt high'] at same
    exact same
  · rw [Nat.add_mod, shift_mod, ← Nat.add_mod] at negative
    have divides : 4294967295 ∣ u'.toNat + u.toNat := Nat.dvd_of_mod_eq_zero negative
    have sum := Nat.eq_of_dvd_of_lt_two_mul (Nat.add_pos_left low' _).ne' divides
      (by rw [Nat.two_mul]; exact Nat.add_lt_add high' high)
    have evenSum : (u'.toNat + u.toNat) % 2 = 0 := by rw [Nat.add_mod, even, even']
    rw [sum] at evenSum
    exact absurd evenSum (by decide)
theorem iterate_not_atEnd {v : Word32} (off : ¬ AtEnd v) (k : Nat) : ¬ AtEnd (F^[k] v) :=
  (UpToSign.iterate off k).2.not_atEnd (UpToSign.iterate off k).1
theorem iterate_F_F {v : Word32} (off : ¬ AtEnd v) : F^[32] (F v) = F v := by
  have inner : ¬ AtEnd (F v) := iterate_not_atEnd off 1
  have even : (F (F^[31] (F v))).toNat % 2 = 0 := even_F (iterate_not_atEnd inner 31)
  rw [← Function.iterate_succ_apply' F] at even
  exact eq_of_upToSign inner (even_F off) even (UpToSign.iterate inner 32).2

/-- By itself the tent map runs in circles: from its first value on, or from its second if it starts at
    an end of the words, it is back after 32 rounds. -/
theorem F_returns (v : Word32) : (v ≠ 0 → v ≠ 0xFFFFFFFF → F^[32] (F v) = F v) ∧ F^[32] (F (F v)) = F (F v) := by
  have golden : ¬ AtEnd phiFrac := by
    rintro (same | same) <;> exact absurd same (by decide)
  constructor
  · intro low high
    apply iterate_F_F
    rintro (same | same)
    · exact low same
    · exact high same
  · by_cases ends : AtEnd v
    · have start : F v = phiFrac := by
        rcases ends with rfl | rfl <;> rfl
      rw [start]
      exact iterate_F_F golden
    · exact iterate_F_F (iterate_not_atEnd ends 1)

theorem rol32_ne {v v' : Word32} (differ : v' ≠ v) {n : Nat} (amount : n ≤ 32) : rol32 v' n ≠ rol32 v n :=
  fun same => differ (rol32_injective amount same)
theorem R_ne {v v' : Word32} (differ : v' ≠ v) : R v' ≠ R v := fun same => differ (R_injective same)

theorem step_x (s : State) : (step s).x = L s.x s.alpha + (F s.z ^^^ rol32 s.y rotYInX) + epsilon s :=
  congrArg Prod.fst (words_step s)
theorem step_y (s : State) : (step s).y = L s.y s.gamma + (R s.w ^^^ rol32 s.x rotXInY) :=
  congrArg (fun q => q.2.1) (words_step s)
theorem step_z (s : State) : (step s).z = L s.z s.mu + (F s.x ^^^ rol32 s.w rotWInZ) :=
  congrArg (fun q => q.2.2.1) (words_step s)
theorem step_w (s : State) : (step s).w = L s.w s.sigma + (R s.y ^^^ rol32 s.z rotZInW) :=
  congrArg (fun q => q.2.2.2) (words_step s)

/-- Which words of a step differ, and which agree, when one word of the state differs. Besides its own
    equation two others read the word: through a rotation or the bit mixer a difference always shows,
    through the tent map unless it is a complement. The fourth does not read it. -/
theorem one_word_spreads (s : State) (v : Word32) :
    (v ≠ s.x → (step { s with x := v }).y ≠ (step s).y ∧ (step { s with x := v }).w = (step s).w ∧
        ((step { s with x := v }).z = (step s).z ↔ v = ~~~s.x)) ∧
      (v ≠ s.y → (step { s with y := v }).x ≠ (step s).x ∧ (step { s with y := v }).z = (step s).z ∧
        (step { s with y := v }).w ≠ (step s).w) ∧
      (v ≠ s.z → (step { s with z := v }).w ≠ (step s).w ∧ (step { s with z := v }).y = (step s).y ∧
        ((step { s with z := v }).x = (step s).x ↔ v = ~~~s.z)) ∧
      (v ≠ s.w → (step { s with w := v }).y ≠ (step s).y ∧ (step { s with w := v }).x = (step s).x ∧
        (step { s with w := v }).z ≠ (step s).z) := by
  have folded {u : Word32} (differ : v ≠ u) : F v = F u ↔ v = ~~~u := by
    rw [eq_comm, F_eq_iff]
    exact or_iff_right differ
  refine ⟨fun differ => ⟨?_, ?_, ?_⟩, fun differ => ⟨?_, ?_, ?_⟩, fun differ => ⟨?_, ?_, ?_⟩, fun differ => ⟨?_, ?_, ?_⟩⟩
  · rw [step_y, step_y]
    exact fun same => rol32_ne differ (by decide) (cancel same)
  · rw [step_w, step_w]
  · rw [step_z, step_z, ← folded differ]
    exact ⟨cancel_left, fun same => by rw [same]⟩
  · rw [step_x, step_x]
    exact fun same => rol32_ne differ (by decide) (cancel ((BitVec.add_left_inj _).mp same))
  · rw [step_z, step_z]
  · rw [step_w, step_w]
    exact fun same => R_ne differ (cancel_left same)
  · rw [step_w, step_w]
    exact fun same => rol32_ne differ (by decide) (cancel same)
  · rw [step_y, step_y]
  · rw [step_x, step_x, ← folded differ]
    exact ⟨fun same => cancel_left ((BitVec.add_left_inj _).mp same), fun same => by rw [same]; rfl⟩
  · rw [step_y, step_y]
    exact fun same => R_ne differ (cancel_left same)
  · rw [step_x, step_x]
    rfl
  · rw [step_z, step_z]
    exact fun same => rol32_ne differ (by decide) (cancel same)

theorem outHi_extract (s : State) : outHi (extract s) = (s.x + s.z) ^^^ rol32 s.y rotExtract :=
  ((join_eq_iff _ _ (extract s)).mp rfl).1.symm
theorem outLo_extract (s : State) : outLo (extract s) = (s.y + s.w) ^^^ rol32 s.x rotExtract :=
  ((join_eq_iff _ _ (extract s)).mp rfl).2.symm

/-- A difference in the second word alone shows in both halves. -/
theorem extract_y {s s' : State} (x : s'.x = s.x) (y : s'.y ≠ s.y) (z : s'.z = s.z) (w : s'.w = s.w) :
    outHi (extract s') ≠ outHi (extract s) ∧ outLo (extract s') ≠ outLo (extract s) := by
  rw [outHi_extract, outHi_extract, outLo_extract, outLo_extract, x, z, w]
  constructor
  · exact fun same => rol32_ne y (by decide) ((BitVec.xor_right_inj _).mp same)
  · exact fun same => y ((BitVec.add_left_inj _).mp ((BitVec.xor_left_inj _).mp same))
/-- A difference in the fourth word alone shows in the lower half. -/
theorem extract_w {s s' : State} (x : s'.x = s.x) (y : s'.y = s.y) (z : s'.z = s.z) (w : s'.w ≠ s.w) :
    outHi (extract s') = outHi (extract s) ∧ outLo (extract s') ≠ outLo (extract s) := by
  rw [outHi_extract, outHi_extract, outLo_extract, outLo_extract, x, y, z]
  exact ⟨rfl, fun same => w ((BitVec.add_right_inj _).mp ((BitVec.xor_left_inj _).mp same))⟩

/-- The next word of keystream of a state with its first word complemented differs in both halves;
    with its third word complemented its upper half is the same, and its lower half differs. -/
theorem complement_words (s : State) :
    (outHi (extract (step (notX s))) ≠ outHi (extract (step s)) ∧
        outLo (extract (step (notX s))) ≠ outLo (extract (step s))) ∧
      outHi (extract (step (notZ s))) = outHi (extract (step s)) ∧
        outLo (extract (step (notZ s))) ≠ outLo (extract (step s)) := by
  obtain ⟨x, y, z, w⟩ := words_step_notX s
  obtain ⟨x', y', z', w'⟩ := words_step_notZ s
  exact ⟨extract_y x y z w, extract_w x' y' z' w'⟩

end Eahcm.Influences
