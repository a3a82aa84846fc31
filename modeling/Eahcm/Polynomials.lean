import Mathlib.Algebra.CharP.Two
import Mathlib.Algebra.Field.ZMod
import Mathlib.Algebra.Polynomial.Div
import Mathlib.Data.Nat.Bitwise
import Mathlib.Tactic.Ring
import Eahcm.Checksums
import Eahcm.ShiftRegisters

/-!
Shift registers as division of polynomials over the field of two elements. Bits spell a
polynomial, the first of them its highest coefficient, and a register is spelled from its lowest
bit on. A shift multiplies by the unknown and takes the divisor off when a bit falls out, so what
a stream leaves in a register is a remainder (`poly_run`), and the register is read off from it
(`reflected_poly`).

The checksum is one of these. Its loop is the register of the generator polynomial of IEEE 802.3 with the
bits reflected, so it divides: the checksum of a message is the remainder of the message, with its first
32 bits complemented and 32 zeros behind it, again complemented and reflected (`crc32_remainder`).
-/
namespace Eahcm.Polynomials
open Eahcm.XorLinear Eahcm.ShiftRegisters Polynomial
variable {w : Nat}

/-- The polynomial that the first bits of a stream spell, from its highest coefficient on. -/
noncomputable def spelled (f : Nat → Bool) (n : Nat) : (ZMod 2)[X] :=
  ∑ p ∈ Finset.range n, if f p then X ^ (n - 1 - p) else 0
/-- The polynomial of a register, whose lowest bit is the highest coefficient. -/
noncomputable def poly (r : BitVec w) : (ZMod 2)[X] := spelled r.getLsbD w
/-- What a register with taps divides by. -/
noncomputable def divisor (taps : BitVec w) : (ZMod 2)[X] := X ^ w + poly taps

theorem spelled_zero (f : Nat → Bool) : spelled f 0 = 0 := rfl
theorem spelled_succ (f : Nat → Bool) (n : Nat) : spelled f (n + 1) = X * spelled f n + if f n then 1 else 0 := by
  have shifted : ∀ p ∈ Finset.range n,
      (if f p then X ^ (n + 1 - 1 - p) else 0 : (ZMod 2)[X]) = X * if f p then X ^ (n - 1 - p) else 0 := by
    intro p inside
    have before := Finset.mem_range.mp inside
    have exponent : n + 1 - 1 - p = n - 1 - p + 1 := by omega
    by_cases set : f p = true
    · rw [if_pos set, if_pos set, exponent, pow_succ']
    · rw [if_neg set, if_neg set, mul_zero]
  rw [spelled, Finset.sum_range_succ, Finset.sum_congr rfl shifted, ← Finset.mul_sum, spelled]
  simp
theorem spelled_succ' (f : Nat → Bool) (n : Nat) :
    spelled f (n + 1) = (if f 0 then X ^ n else 0) + spelled (fun p => f (p + 1)) n := by
  have shifted : ∀ p ∈ Finset.range n, (if f (p + 1) then X ^ (n + 1 - 1 - (p + 1)) else 0 : (ZMod 2)[X]) =
      if f (p + 1) then X ^ (n - 1 - p) else 0 := by
    intro p _
    have exponent : n + 1 - 1 - (p + 1) = n - 1 - p := by omega
    rw [exponent]
  rw [spelled, Finset.sum_range_succ', Finset.sum_congr rfl shifted, spelled, add_comm]
  simp

theorem spelled_congr {f g : Nat → Bool} {n : Nat} (same : ∀ p < n, f p = g p) : spelled f n = spelled g n := by
  apply Finset.sum_congr rfl
  intro p inside
  rw [same p (Finset.mem_range.mp inside)]
theorem spelled_xor (f g : Nat → Bool) (n : Nat) :
    spelled (fun p => f p ^^ g p) n = spelled f n + spelled g n := by
  rw [spelled, spelled, spelled, ← Finset.sum_add_distrib]
  apply Finset.sum_congr rfl
  intro p _
  have double := CharTwo.add_self_eq_zero (X ^ (n - 1 - p) : (ZMod 2)[X])
  cases f p <;> cases g p <;> simp [double]
theorem spelled_and (b : Bool) (f : Nat → Bool) (n : Nat) :
    spelled (fun p => b && f p) n = if b then spelled f n else 0 := by
  cases b <;> simp [spelled]

theorem coeff_spelled (f : Nat → Bool) (n k : Nat) :
    (spelled f n).coeff k = if k < n ∧ f (n - 1 - k) = true then 1 else 0 := by
  induction n generalizing k with
  | zero => simp [spelled_zero]
  | succ n ih =>
    have constant : (if f n then 1 else 0 : (ZMod 2)[X]) = C (if f n then 1 else 0) := by
      by_cases set : f n = true <;> simp [set]
    rw [spelled_succ, coeff_add, constant, coeff_C]
    cases k with
    | zero => simp
    | succ k =>
      have place : n + 1 - 1 - (k + 1) = n - 1 - k := by omega
      rw [coeff_X_mul, ih, place]
      simp
theorem degree_spelled_lt (f : Nat → Bool) (n : Nat) : (spelled f n).degree < n := by
  rw [degree_lt_iff_coeff_zero]
  intro k beyond
  rw [coeff_spelled, if_neg]
  rintro ⟨inside, _⟩
  omega

theorem poly_zero : poly 0#w = 0 := by
  simp [poly, spelled]
theorem poly_xor (a b : BitVec w) : poly (a ^^^ b) = poly a + poly b := by
  rw [poly, poly, poly, ← spelled_xor]
  exact spelled_congr fun p _ => BitVec.getLsbD_xor
theorem poly_one (positive : 0 < w) : poly (one w) = X ^ (w - 1) := by
  obtain ⟨v, rfl⟩ := Nat.exists_eq_succ_of_ne_zero (Nat.ne_of_gt positive)
  have rest : spelled (fun p => (one (v + 1)).getLsbD (p + 1)) v = spelled (fun _ => false) v :=
    spelled_congr fun p _ => by simp [one, BitVec.getLsbD_twoPow]
  rw [poly, Nat.succ_eq_add_one, spelled_succ', rest]
  simp [one, spelled]

theorem monic_divisor (taps : BitVec w) : (divisor taps).Monic := monic_X_pow_add (degree_spelled_lt _ w)
theorem degree_divisor (taps : BitVec w) : (divisor taps).degree = w := by
  have lower : (poly taps).degree < (X ^ w : (ZMod 2)[X]).degree := by
    rw [degree_X_pow]
    exact degree_spelled_lt _ w
  rw [divisor, degree_add_eq_left_of_degree_lt lower, degree_X_pow]

/-- A shift multiplies by the unknown and takes off the divisor when a bit falls out. -/
theorem poly_shift (taps r : BitVec w) :
    poly (shift taps r) = X * poly r + if r.getLsbD 0 then divisor taps else 0 := by
  have beyond : r.getLsbD w = false := BitVec.getLsbD_of_ge r w (Nat.le_refl w)
  have product : X * poly r = (if r.getLsbD 0 then X ^ w else 0) + spelled (fun p => r.getLsbD (p + 1)) w := by
    have both := (spelled_succ r.getLsbD w).symm.trans (spelled_succ' r.getLsbD w)
    rw [beyond] at both
    simpa [poly] using both
  have bits : poly (shift taps r) =
      spelled (fun p => r.getLsbD (p + 1)) w + if r.getLsbD 0 then poly taps else 0 := by
    rw [poly, poly, ← spelled_and, ← spelled_xor]
    exact spelled_congr fun p _ => getLsbD_shift taps r p
  have double := CharTwo.add_self_eq_zero (X ^ w : (ZMod 2)[X])
  rw [bits, product, divisor]
  by_cases fallen : r.getLsbD 0 = true
  · rw [if_pos fallen, if_pos fallen, if_pos fallen]
    calc spelled (fun p => r.getLsbD (p + 1)) w + poly taps
        = (X ^ w + X ^ w) + (spelled (fun p => r.getLsbD (p + 1)) w + poly taps) := by rw [double, zero_add]
      _ = X ^ w + spelled (fun p => r.getLsbD (p + 1)) w + (X ^ w + poly taps) := by ring
  · rw [if_neg fallen, if_neg fallen, if_neg fallen, zero_add]

/-- A stream leaves a register congruent to what it spells, behind what was in the register. -/
theorem exists_poly_run (positive : 0 < w) (taps : BitVec w) (f : Nat → Bool) (r : BitVec w) (n : Nat) :
    ∃ q, poly (run taps f r n) = X ^ n * poly r + X ^ w * spelled f n + q * divisor taps := by
  induction n with
  | zero => exact ⟨0, by simp [run, spelled_zero]⟩
  | succ n ih =>
    obtain ⟨q, before⟩ := ih
    have fed : X * poly (if f n then one w else 0#w) = X ^ w * if f n then 1 else 0 := by
      by_cases set : f n = true
      · rw [if_pos set, if_pos set, poly_one positive, ← pow_succ', Nat.sub_add_cancel positive, mul_one]
      · rw [if_neg set, if_neg set, poly_zero, mul_zero, mul_zero]
    refine ⟨X * q + if (run taps f r n ^^^ if f n then one w else 0#w).getLsbD 0 then 1 else 0, ?_⟩
    rw [run, poly_shift, poly_xor, mul_add, fed, before, spelled_succ, pow_succ']
    by_cases fallen : (run taps f r n ^^^ if f n then one w else 0#w).getLsbD 0 = true
    · rw [if_pos fallen, if_pos fallen]
      ring
    · rw [if_neg fallen, if_neg fallen]
      ring

/-- What a stream leaves in a register is a remainder by the divisor. -/
theorem poly_run (positive : 0 < w) (taps : BitVec w) (f : Nat → Bool) (r : BitVec w) (n : Nat) :
    poly (run taps f r n) = (X ^ n * poly r + X ^ w * spelled f n) %ₘ divisor taps := by
  obtain ⟨q, sum⟩ := exists_poly_run positive taps f r n
  refine (div_modByMonic_unique (-q) (poly (run taps f r n)) (monic_divisor taps) ⟨?_, ?_⟩).2.symm
  · rw [sum]
    ring
  · rw [degree_divisor]
    exact degree_spelled_lt _ w

/-- The register whose bits are the coefficients of a polynomial, the highest at the bottom. -/
noncomputable def reflected (w : Nat) (p : (ZMod 2)[X]) : BitVec w :=
  BitVec.ofNat w (Nat.ofBits fun i : Fin w => decide (p.coeff (w - 1 - i) = 1))

theorem reflected_poly (r : BitVec w) : reflected w (poly r) = r := by
  apply BitVec.eq_of_getLsbD_eq
  intro i inside
  have place : w - 1 - (w - 1 - i) = i := by omega
  have before : w - 1 - i < w := by omega
  rw [reflected, BitVec.getLsbD_ofNat, Nat.testBit_ofBits_lt _ i inside, poly, coeff_spelled, place]
  cases r.getLsbD i <;> simp [inside, before]

end Eahcm.Polynomials

namespace Eahcm.Remainders
open Eahcm.Types Eahcm.LittleEndian Eahcm.Binary Eahcm.ShiftRegisters Eahcm.Checksums Eahcm.Polynomials Polynomial

/-- The generator polynomial of IEEE 802.3. -/
noncomputable def ieee : (ZMod 2)[X] :=
  X ^ 32 + X ^ 26 + X ^ 23 + X ^ 22 + X ^ 16 + X ^ 12 + X ^ 11 + X ^ 10 + X ^ 8 + X ^ 7 + X ^ 5 + X ^ 4 + X ^ 2 + X + 1
/-- The polynomial of a message, whose highest coefficient is the lowest bit of the first byte. -/
noncomputable def message (m : Bytes) : (ZMod 2)[X] :=
  ∑ p ∈ Finset.range (8 * m.length), if bitAt m p then X ^ (8 * m.length - 1 - p) else 0

/-- The taps of the checksum loop are the generator polynomial, its highest coefficient left out. -/
theorem divisor_generator : divisor generator = ieee := by
  have taps : poly generator =
      X ^ 26 + X ^ 23 + X ^ 22 + X ^ 16 + X ^ 12 + X ^ 11 + X ^ 10 + X ^ 8 + X ^ 7 + X ^ 5 + X ^ 4 + X ^ 2 + X + 1 := by
    simp [poly, spelled, Finset.sum_range_succ, generator]
  rw [divisor, taps, ieee]
  ring

theorem poly_ones : poly (0xFFFFFFFF : Word32) = ∑ i ∈ Finset.range 32, X ^ i := by
  have set : ∀ p ∈ Finset.range 32, (if (0xFFFFFFFF : Word32).getLsbD p then X ^ (32 - 1 - p) else 0 : (ZMod 2)[X]) =
      X ^ (32 - 1 - p) := by
    intro p inside
    have ones : ∀ p < 32, (0xFFFFFFFF : Word32).getLsbD p = true := by decide
    rw [if_pos (ones p (Finset.mem_range.mp inside))]
  rw [poly, spelled, Finset.sum_congr rfl set]
  exact Finset.sum_range_reflect (fun i => (X ^ i : (ZMod 2)[X])) 32

/-- The checksum is the complement of what a message leaves in the register. -/
theorem crc32_eq (m : Bytes) : crc32 m = ~~~run generator (bitAt m) 0xFFFFFFFF (8 * m.length) := by
  rw [crc32, ← foldl_crcByte m 0xFFFFFFFF (Nat.le_refl m.length), List.take_length]

theorem crc32_reflected (m : Bytes) :
    crc32 m = ~~~reflected 32 ((message m * X ^ 32 + (∑ i ∈ Finset.range 32, X ^ i) * X ^ (8 * m.length)) %ₘ ieee) := by
  have remainder := poly_run (by decide) generator (bitAt m) 0xFFFFFFFF (8 * m.length)
  rw [divisor_generator, poly_ones] at remainder
  have dividend : message m * X ^ 32 + (∑ i ∈ Finset.range 32, X ^ i) * X ^ (8 * m.length) =
      X ^ (8 * m.length) * ∑ i ∈ Finset.range 32, X ^ i + X ^ 32 * spelled (bitAt m) (8 * m.length) := by
    rw [message, spelled]
    ring
  rw [dividend, ← remainder, reflected_poly, crc32_eq]

/-- A message with its own checksum behind it has one fixed checksum. -/
theorem crc32_append (m : Bytes) : crc32 (m ++ storeLe32 (crc32 m)) = 0x2144DF1C := by
  have front : (m ++ storeLe32 (crc32 m)).take m.length = m := List.take_left
  have stored : ofBytes 32 (((m ++ storeLe32 (crc32 m)).drop m.length).take 4) =
      crc32 ((m ++ storeLe32 (crc32 m)).take m.length) := by
    rw [front, List.drop_left, storeLe32_eq, List.take_of_length_le (by simp), ofBytes_toBytes 4 _ (by decide)]
  have fixed := run_checksum (by simp) stored
  have size : 8 * (m ++ storeLe32 (crc32 m)).length = 8 * m.length + 32 := by
    rw [List.length_append, length_storeLe32]
    omega
  have residue : ~~~(shift generator)^[32] 0xFFFFFFFF = 0x2144DF1C := by decide +kernel
  rw [crc32_eq, size, fixed, residue]

/-- The checksum is the complemented and reflected remainder that IEEE 802.3 prescribes, for messages
    of any length, and a message with its checksum behind it has the same checksum as any other. -/
theorem crc32_remainder :
    ieee.Monic ∧
      (∀ m, crc32 m =
        ~~~reflected 32 ((message m * X ^ 32 + (∑ i ∈ Finset.range 32, X ^ i) * X ^ (8 * m.length)) %ₘ ieee)) ∧
      ∀ m, crc32 (m ++ storeLe32 (crc32 m)) = 0x2144DF1C := by
  refine ⟨?_, crc32_reflected, crc32_append⟩
  rw [← divisor_generator]
  exact monic_divisor generator

end Eahcm.Remainders
