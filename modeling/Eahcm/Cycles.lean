import Mathlib.Data.Fintype.Pigeonhole
import Mathlib.Logic.Function.Iterate
import Mathlib.SetTheory.Cardinal.Finite
import Mathlib.Tactic.Ring
import Eahcm.Ciphers
import Eahcm.Fibres
import Eahcm.Orbits
import Eahcm.Outputs

/-!
Runs that come back. Once a run has been at a place twice it goes round from there on
(`iterate_recurs`), and a run that can be told by finitely many codes, at times a given stride apart,
comes back before there are more times than codes (`recurs_within`).

The runs of the state machine are such. In the chaotic regime, which every run reaches, a state is told
by its four words, its counter and how far its parameters are above the floor, and the counter turns
once in `2 ^ 32` steps. So a run goes round in the end, in whole turns of the counter and no others
(`eventually_periodic`).
-/
namespace Eahcm.Recurrences
variable {α β : Type}

/-- Of more samples than there are codes two have the same. -/
theorem exists_repeat [Finite β] (code : Nat → β) : ∃ i p, 0 < p ∧ i + p ≤ Nat.card β ∧ code (i + p) = code i := by
  have := Fintype.ofFinite β
  obtain ⟨i, j, differ, same⟩ := Fintype.exists_ne_map_eq_of_card_lt (fun k : Fin (Fintype.card β + 1) => code k)
    (by rw [Fintype.card_fin]; exact Nat.lt_succ_self _)
  have least := i.isLt
  have most := j.isLt
  rw [Nat.card_eq_fintype_card]
  rcases Nat.lt_or_gt_of_ne (Fin.val_ne_of_ne differ) with before | after
  · obtain ⟨p, later⟩ := Nat.exists_eq_add_of_lt before
    refine ⟨i, p + 1, Nat.succ_pos p, by omega, ?_⟩
    rw [← Nat.add_assoc, ← later]
    exact same.symm
  · obtain ⟨p, later⟩ := Nat.exists_eq_add_of_lt after
    refine ⟨j, p + 1, Nat.succ_pos p, by omega, ?_⟩
    rw [← Nat.add_assoc, ← later]
    exact same

theorem iterate_recurs {f : α → α} {a : α} {n p : Nat} (again : f^[n + p] a = f^[n] a) {k : Nat} (later : n ≤ k) :
    f^[k + p] a = f^[k] a := by
  obtain ⟨rest, rfl⟩ := Nat.exists_eq_add_of_le later
  have order : n + rest + p = rest + (n + p) := by omega
  rw [order, Function.iterate_add_apply, again, ← Function.iterate_add_apply, Nat.add_comm]

/-- A run whose places at some times a stride apart are told by finitely many codes goes round from one of
    those times on. -/
theorem recurs_within [Finite β] {f : α → α} {a : α} {start stride : Nat} (code : Nat → β)
    (faithful : ∀ i j, code i = code j → f^[start + stride * i] a = f^[start + stride * j] a) :
    ∃ i p, 0 < p ∧ i + p ≤ Nat.card β ∧ ∀ k ≥ start + stride * i, f^[k + stride * p] a = f^[k] a := by
  obtain ⟨i, p, positive, within, same⟩ := exists_repeat code
  refine ⟨i, p, positive, within, fun k later => iterate_recurs ?_ later⟩
  rw [Nat.add_assoc, ← Nat.mul_add]
  exact faithful _ _ same

end Eahcm.Recurrences

namespace Eahcm.Cycles
open Eahcm.Types Eahcm.States Eahcm.Equations Eahcm.Orbits Eahcm.Outputs Eahcm.Recurrences Eahcm.WordTaps Eahcm.Ciphers

/-- How far above the floor a parameter in the regime may be. -/
abbrev Offset := Fin driftMask.toNat
theorem driftMask_pos : 0 < driftMask.toNat := by decide
def offset (p : Word32) : Offset :=
  ⟨(p.toNat - paramFloor.toNat) % driftMask.toNat, Nat.mod_lt _ driftMask_pos⟩
/-- What tells a state in the regime from others with its counter. -/
abbrev Place := (Word32 × Word32 × Word32 × Word32) × Offset × Offset × Offset × Offset
def place (s : State) : Place := (words s, offset s.alpha, offset s.gamma, offset s.mu, offset s.sigma)
/-- The number of states in the regime that have one counter. -/
def places : Nat := 2 ^ 128 * driftMask.toNat ^ 4

theorem offset_injective {p q : Word32} (inside : ParamOk p) (inside' : ParamOk q) (same : offset p = offset q) :
    p = q := by
  have ceiling : paramCeiling.toNat = paramFloor.toNat + driftMask.toNat := by decide
  have low := inside.1
  have high := inside.2
  have low' := inside'.1
  have high' := inside'.2
  rw [offset, offset, Fin.mk.injEq, Nat.mod_eq_of_lt (by omega), Nat.mod_eq_of_lt (by omega)] at same
  exact BitVec.eq_of_toNat_eq (by omega)
theorem place_injective {s s' : State} (inside : InRegime s) (inside' : InRegime s') (counter : s.counter = s'.counter)
    (same : place s = place s') : s = s' := by
  simp only [place, words, Prod.mk.injEq] at same
  obtain ⟨⟨x, y, z, w⟩, alpha, gamma, mu, sigma⟩ := same
  have alpha := offset_injective inside.alpha inside'.alpha alpha
  have gamma := offset_injective inside.gamma inside'.gamma gamma
  have mu := offset_injective inside.mu inside'.mu mu
  have sigma := offset_injective inside.sigma inside'.sigma sigma
  cases s
  cases s'
  simp only [State.mk.injEq]
  exact ⟨x, y, z, w, alpha, gamma, mu, sigma, counter⟩

theorem card_place : Nat.card Place = places := by
  have offsets : Nat.card Offset = driftMask.toNat := Nat.card_fin _
  simp only [Nat.card_prod, card_word, offsets, places]
  ring

/-- Every run goes round in the end: after at most 64 steps to reach the regime it comes back to a state it
    has been in before every state of the regime has been passed once, and its words of keystream repeat
    from there on. What it takes from a state back to it is a whole number of turns of the counter. -/
theorem eventually_periodic (s : State) :
    (∃ n p, 0 < p ∧ n + 2 ^ 32 * p ≤ 64 + 2 ^ 32 * places ∧ ∀ k ≥ n, step^[k + 2 ^ 32 * p] s = step^[k] s ∧
        keystream.wordAt s (k + 2 ^ 32 * p) = keystream.wordAt s k) ∧
      ∀ n p, step^[n + p] s = step^[n] s → 2 ^ 32 ∣ p := by
  constructor
  · obtain ⟨start, soon, _, _, inside⟩ := inRegime_within s
    have faithful : ∀ i j, place (step^[start + 2 ^ 32 * i] s) = place (step^[start + 2 ^ 32 * j] s) →
        step^[start + 2 ^ 32 * i] s = step^[start + 2 ^ 32 * j] s := by
      intro i j same
      refine place_injective (inside _ (Nat.le_add_right _ _)) (inside _ (Nat.le_add_right _ _)) ?_ same
      rw [counter_eq_iff, Nat.ModEq, Nat.add_mul_mod_self_left, Nat.add_mul_mod_self_left]
    obtain ⟨i, p, positive, within, again⟩ := recurs_within (fun k => place (step^[start + 2 ^ 32 * k] s)) faithful
    rw [card_place] at within
    refine ⟨start + 2 ^ 32 * i, p, positive, ?_, fun k later => ⟨again k later, ?_⟩⟩
    · calc start + 2 ^ 32 * i + 2 ^ 32 * p = start + 2 ^ 32 * (i + p) := by rw [Nat.add_assoc, ← Nat.mul_add]
        _ ≤ 64 + 2 ^ 32 * places := Nat.add_le_add soon (Nat.mul_le_mul_left _ within)
    · have next : k + 2 ^ 32 * p + 1 = k + 1 + 2 ^ 32 * p := by omega
      rw [wordAt_keystream, wordAt_keystream, next, again (k + 1) (Nat.le_succ_of_le later)]
  · intro n p again
    have turn := (counter_eq_iff s (n + p) n).mp (congrArg State.counter again)
    have zero : n + p ≡ n + 0 [MOD 2 ^ 32] := turn
    exact (Nat.modEq_zero_iff_dvd).mp (Nat.ModEq.add_left_cancel' n zero)

end Eahcm.Cycles
