import Mathlib.Data.List.Basic
import Mathlib.Logic.Function.Iterate

/-!
Maps of bit vectors that respect exclusive or. Such a map is given by its values at the single
bits (`Additive.ext_twoPow`), it is injective when only zero goes to zero, and it takes the
exclusive or of a list to that of the images.
-/
namespace Eahcm.XorLinear
variable {v w : Nat}

/-- The map takes an exclusive or to the exclusive or of the images. -/
def Additive (f : BitVec v → BitVec w) : Prop := ∀ a b, f (a ^^^ b) = f a ^^^ f b
/-- The exclusive or of all vectors in a list. -/
def xorSum (terms : List (BitVec w)) : BitVec w := terms.foldr (· ^^^ ·) 0#w

@[simp] theorem xorSum_nil : xorSum ([] : List (BitVec w)) = 0#w := rfl
@[simp] theorem xorSum_cons (term : BitVec w) (rest : List (BitVec w)) :
    xorSum (term :: rest) = term ^^^ xorSum rest := rfl
@[simp] theorem xorSum_append (front back : List (BitVec w)) :
    xorSum (front ++ back) = xorSum front ^^^ xorSum back := by
  induction front with
  | nil => simp
  | cons term front ih => simp [ih, BitVec.xor_assoc]

theorem Additive.zero {f : BitVec v → BitVec w} (additive : Additive f) : f 0#v = 0#w := by
  have double := additive 0#v 0#v
  rw [BitVec.xor_self] at double
  rw [double, BitVec.xor_self]
theorem Additive.id : Additive fun a : BitVec w => a := fun _ _ => rfl
theorem Additive.comp {u : Nat} {g : BitVec v → BitVec w} {f : BitVec u → BitVec v} (outer : Additive g)
    (inner : Additive f) : Additive fun a => g (f a) := by
  intro a b
  simp only [inner a b, outer _ _]
theorem Additive.iterate {f : BitVec w → BitVec w} (additive : Additive f) (n : Nat) : Additive f^[n] := by
  induction n with
  | zero => exact fun _ _ => rfl
  | succ n ih =>
    intro a b
    rw [Function.iterate_succ_apply', Function.iterate_succ_apply', Function.iterate_succ_apply', ih, additive]
theorem Additive.xor {f g : BitVec v → BitVec w} (first : Additive f) (second : Additive g) :
    Additive fun a => f a ^^^ g a := by
  intro a b
  simp only [first a b, second a b]
  ac_rfl
theorem Additive.shiftLeft (n : Nat) : Additive fun a : BitVec w => a <<< n := fun a b =>
  BitVec.shiftLeft_xor_distrib a b n
theorem Additive.ushiftRight (n : Nat) : Additive fun a : BitVec w => a >>> n := fun a b =>
  BitVec.ushiftRight_xor_distrib a b n
theorem Additive.and (mask : BitVec w) : Additive fun a : BitVec w => a &&& mask := by
  intro a b
  ext i inside
  simp only [BitVec.getElem_and, BitVec.getElem_xor]
  cases a[i] <;> cases b[i] <;> cases mask[i] <;> rfl

theorem Additive.map_xorSum {f : BitVec v → BitVec w} (additive : Additive f) (terms : List (BitVec v)) :
    f (xorSum terms) = xorSum (terms.map f) := by
  induction terms with
  | nil => exact additive.zero
  | cons term rest ih => simp [additive _ _, ih]

/-- Nothing but zero goes to zero. -/
theorem Additive.injective_of_kernel {f : BitVec v → BitVec w} (additive : Additive f)
    (kernel : ∀ a, f a = 0#w → a = 0#v) : Function.Injective f := by
  intro a b same
  have difference : f (a ^^^ b) = 0#w := by rw [additive, same, BitVec.xor_self]
  exact BitVec.xor_eq_zero_iff.mp (kernel _ difference)

/-- A vector with one of its bits cleared. -/
def clearBit (a : BitVec w) (i : Nat) : BitVec w := if a.getLsbD i then a ^^^ BitVec.twoPow w i else a

theorem getLsbD_clearBit (a : BitVec w) (i j : Nat) :
    (clearBit a i).getLsbD j = (a.getLsbD j && decide (i ≠ j)) := by
  by_cases set : a.getLsbD i = true
  · have inside : i < w := BitVec.lt_of_getLsbD set
    by_cases same : i = j
    · subst same
      simp [clearBit, set, inside]
    · simp [clearBit, set, same]
  · by_cases same : i = j
    · subst same
      simp [clearBit, set]
    · simp [clearBit, set, same]
theorem xor_clearBit (a : BitVec w) (i : Nat) :
    clearBit a i ^^^ (if a.getLsbD i then BitVec.twoPow w i else 0#w) = a := by
  by_cases set : a.getLsbD i = true
  · rw [clearBit, if_pos set, if_pos set, BitVec.xor_assoc, BitVec.xor_self, BitVec.xor_zero]
  · rw [clearBit, if_neg set, if_neg set, BitVec.xor_zero]

/-- Additive maps that agree at the single bits agree everywhere. -/
theorem Additive.ext_twoPow {f g : BitVec v → BitVec w} (first : Additive f) (second : Additive g)
    (bits : ∀ i < v, f (BitVec.twoPow v i) = g (BitVec.twoPow v i)) : f = g := by
  -- by the number of low bits that may be set
  have low (n : Nat) (within : n ≤ v) : ∀ a : BitVec v, (∀ i ≥ n, a.getLsbD i = false) → f a = g a := by
    induction n with
    | zero =>
      intro a clear
      have zero : a = 0#v := BitVec.eq_of_getLsbD_eq fun i _ => by simp [clear i (Nat.zero_le i)]
      rw [zero, first.zero, second.zero]
    | succ n ih =>
      intro a clear
      have rest : f (clearBit a n) = g (clearBit a n) := by
        refine ih (by omega) _ fun i above => ?_
        rw [getLsbD_clearBit]
        by_cases same : n = i
        · simp [same]
        · rw [clear i (by omega), Bool.false_and]
      rw [← xor_clearBit a n, first, second, rest]
      by_cases set : a.getLsbD n = true
      · rw [if_pos set, bits n (by omega)]
      · rw [if_neg set, first.zero, second.zero]
  funext a
  exact low v (Nat.le_refl v) a fun i above => BitVec.getLsbD_of_ge a i above

/-- The exclusive or of two lists, place by place. -/
def xorLists (a b : List (BitVec w)) : List (BitVec w) := List.zipWith (· ^^^ ·) a b

@[simp] theorem length_xorLists (a b : List (BitVec w)) : (xorLists a b).length = min a.length b.length :=
  List.length_zipWith
theorem xorLists_append {a b : List (BitVec w)} (sizes : a.length = b.length) (a' b' : List (BitVec w)) :
    xorLists (a ++ a') (b ++ b') = xorLists a b ++ xorLists a' b' := List.zipWith_append sizes
theorem xorLists_assoc (a b c : List (BitVec w)) : xorLists (xorLists a b) c = xorLists a (xorLists b c) := by
  apply List.ext_getElem (by simp [Nat.min_assoc])
  intro i _ _
  simp [xorLists, BitVec.xor_assoc]
theorem xorLists_comm (a b : List (BitVec w)) : xorLists a b = xorLists b a :=
  List.zipWith_comm_of_comm fun u v => BitVec.xor_comm u v
theorem xorLists_cancel {a b : List (BitVec w)} (sizes : a.length = b.length) : xorLists a (xorLists a b) = b := by
  apply List.ext_getElem (by simp [sizes])
  intro i _ _
  simp only [xorLists, List.getElem_zipWith, ← BitVec.xor_assoc, BitVec.xor_self, BitVec.zero_xor]

/-- A fold over vectors that respects exclusive or at every step respects it as a whole. -/
theorem foldl_xorLists {f : BitVec v → BitVec w → BitVec v}
    (additive : ∀ r r' a b, f (r ^^^ r') (a ^^^ b) = f r a ^^^ f r' b) {a b : List (BitVec w)}
    (sizes : a.length = b.length) (r r' : BitVec v) :
    (xorLists a b).foldl f (r ^^^ r') = a.foldl f r ^^^ b.foldl f r' := by
  induction a generalizing b r r' with
  | nil =>
    cases b with
    | nil => rfl
    | cons _ _ => cases sizes
  | cons u a ih =>
    cases b with
    | nil => cases sizes
    | cons u' b =>
      change (xorLists a b).foldl f (f (r ^^^ r') (u ^^^ u')) = _
      rw [additive, ih (Nat.succ.inj sizes)]
      rfl

/-- The bits of a sum of different single bits are those that occur in it. -/
theorem getLsbD_xorSum_twoPow {indices : List Nat} (distinct : indices.Nodup) {i : Nat} (inside : i < w) :
    (xorSum (indices.map (BitVec.twoPow w))).getLsbD i = decide (i ∈ indices) := by
  induction indices with
  | nil => simp
  | cons j rest ih =>
    obtain ⟨fresh, distinct⟩ := List.nodup_cons.mp distinct
    rw [List.map_cons, xorSum_cons, BitVec.getLsbD_xor, ih distinct, BitVec.getLsbD_twoPow]
    by_cases same : j = i
    · subst same
      simp [fresh, inside]
    · simp [same, Ne.symm same]

end Eahcm.XorLinear
