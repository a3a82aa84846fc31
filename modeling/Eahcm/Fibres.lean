import Mathlib.Data.BitVec
import Mathlib.Data.Int.CardIntervalMod
import Mathlib.Logic.Equiv.Prod
import Mathlib.SetTheory.Cardinal.Finite

/-!
Maps of two arguments that can be solved. Of maps that depend on their arguments one after the other
the pair can be solved for both (`bijective_pair`), and a map that can be solved for its second
argument takes every value equally often, once for each first argument (`card_fibre`). The remainders of
the words take the low values once more than the others (`card_remainder`).
-/
namespace Eahcm.Fibres
variable {A B C D : Type}

/-- Two maps, the first solved for the first argument and the second, with that argument known, for
    the other. -/
theorem bijective_pair {g : A → C} {h : A → B → D} (first : Function.Bijective g)
    (second : ∀ a, Function.Bijective (h a)) : Function.Bijective fun p : A × B => (g p.1, h p.1 p.2) :=
  ((Equiv.ofBijective g first).prodShear fun a => Equiv.ofBijective (h a) (second a)).bijective
/-- The arguments may come the other way round, and so may the values. -/
theorem bijective_swap {f : A × B → C} (bijective : Function.Bijective f) :
    Function.Bijective fun p : B × A => f (p.2, p.1) := bijective.comp Prod.swap_bijective
theorem swap_bijective {f : A → C × D} (bijective : Function.Bijective f) :
    Function.Bijective fun a => ((f a).2, (f a).1) := Prod.swap_bijective.comp bijective

/-- A map that can be solved for its second argument takes each value once for each first argument. -/
theorem card_fibre {f : A → B → C} (solvable : ∀ a, Function.Bijective (f a)) (c : C) :
    Nat.card { p : A × B // f p.1 p.2 = c } = Nat.card A := by
  refine Nat.card_congr (Equiv.ofBijective (fun p => p.val.1) ⟨?_, fun a => ?_⟩)
  · rintro ⟨⟨a, b⟩, value⟩ ⟨⟨a', b'⟩, value'⟩ same
    obtain rfl : a = a' := same
    obtain rfl : b = b' := (solvable a).injective (value.trans value'.symm)
    rfl
  · obtain ⟨b, value⟩ := (solvable a).surjective c
    exact ⟨⟨(a, b), value⟩, rfl⟩

instance finite_word (n : Nat) : Finite (BitVec n) := Finite.of_equiv _ BitVec.equivFin.toEquiv.symm

/-- The words with a given remainder, one more for the remainders below that of the number of all words. -/
theorem card_remainder {w r v : Nat} (below : v < r) :
    Nat.card { a : BitVec w // a.toNat % r = v } = 2 ^ w / r + if v < 2 ^ w % r then 1 else 0 := by
  have counted := Nat.count_modEq_card (2 ^ w) (Nat.zero_lt_of_lt below) v
  rw [Nat.mod_eq_of_lt below] at counted
  have remainder (k : Nat) : k ≡ v [MOD r] ↔ k % r = v := by
    rw [Nat.ModEq, Nat.mod_eq_of_lt below]
  have values : { a : BitVec w // a.toNat % r = v } ≃ { k // k < 2 ^ w ∧ k ≡ v [MOD r] } :=
    { toFun a := ⟨a.val.toNat, a.val.isLt, (remainder _).mpr a.property⟩
      invFun k := ⟨BitVec.ofNat w k.val, by
        rw [BitVec.toNat_ofNat, Nat.mod_eq_of_lt k.property.1]
        exact (remainder _).mp k.property.2⟩
      left_inv a := Subtype.ext (BitVec.eq_of_toNat_eq (by simp))
      right_inv k := Subtype.ext (by simp [Nat.mod_eq_of_lt k.property.1]) }
  rw [Nat.card_congr values, ← counted, Nat.count_eq_card_fintype]
  exact @Nat.card_eq_fintype_card _ (Nat.CountSet.fintype (· ≡ v [MOD r]) (2 ^ w))

end Eahcm.Fibres
