import Eahcm.Types

/-!
The three primitives of the round function (`arithmetic.hpp`): the logistic driver `L`, in the
two forms that the platform selects between, the tent map `F` and the bit mixer `R`. No
intermediate product of either form of `L` wraps, so both are one quotient of natural
numbers and are the same function (`LSplit_eq`).
-/
namespace Eahcm.Arithmetic
open Eahcm.Types

/-- `v * ~v` in 64 bits. -/
def vn (v : Word32) : Word64 := v.setWidth 64 * (~~~v).setWidth 64
/-- `p * (v * ~v)` in 128 bits. -/
def full (v p : Word32) : BitVec 128 := p.setWidth 128 * (vn v).setWidth 128
/-- `L` where the compiler has 128-bit integers (`EAHCM_HAS_UINT128`). -/
def L (v p : Word32) : Word32 :=
  let result := (full v p >>> 32).setWidth 32
  result + if result = 0 then 1 else 0

def vnHi (v : Word32) : Word32 := (vn v >>> 32).setWidth 32
def vnLo (v : Word32) : Word32 := (vn v).setWidth 32
def term1 (v p : Word32) : Word64 := p.setWidth 64 * (vnHi v).setWidth 64
def term2 (v p : Word32) : Word64 := p.setWidth 64 * (vnLo v).setWidth 64
/-- `L` by two 64-bit multiplications, everywhere else. -/
def LSplit (v p : Word32) : Word32 :=
  let result := (term1 v p + (term2 v p >>> 32)).setWidth 32
  result + if result = 0 then 1 else 0

/-- The quotient both forms of `L` compute before the guard against zero. -/
def quotient (v p : Word32) : Nat := p.toNat * v.toNat * (2 ^ 32 - 1 - v.toNat) / 2 ^ 32 % 2 ^ 32

/-- Every machine operation of the two forms of `L` has the value of the exact operation. -/
structure Exact (v p : Word32) : Prop where
  vn : (vn v).toNat = v.toNat * (~~~v).toNat
  full : (full v p).toNat = p.toNat * (Arithmetic.vn v).toNat
  term1 : (term1 v p).toNat = p.toNat * (vnHi v).toNat
  term2 : (term2 v p).toNat = p.toNat * (vnLo v).toNat
  sum : (Arithmetic.term1 v p + (Arithmetic.term2 v p >>> 32)).toNat =
    (Arithmetic.term1 v p).toNat + (Arithmetic.term2 v p).toNat / 2 ^ 32

private theorem mul_wide (a b : Word32) : (a.setWidth 64 * b.setWidth 64).toNat = a.toNat * b.toNat := by
  have product : a.toNat * b.toNat < 2 ^ 64 := Nat.lt_of_lt_of_eq (Nat.mul_lt_mul'' a.isLt b.isLt) (by decide)
  have left : a.toNat < 2 ^ 64 := Nat.lt_trans a.isLt (by decide)
  have right : b.toNat < 2 ^ 64 := Nat.lt_trans b.isLt (by decide)
  rw [BitVec.toNat_mul, BitVec.toNat_setWidth, BitVec.toNat_setWidth, Nat.mod_eq_of_lt left, Nat.mod_eq_of_lt right,
    Nat.mod_eq_of_lt product]

theorem toNat_vn (v : Word32) : (vn v).toNat = v.toNat * (2 ^ 32 - 1 - v.toNat) := by
  rw [vn, mul_wide, BitVec.toNat_not]
theorem toNat_full (v p : Word32) : (full v p).toNat = p.toNat * (vn v).toNat := by
  have product : p.toNat * (vn v).toNat < 2 ^ 32 * 2 ^ 64 := Nat.mul_lt_mul'' p.isLt (vn v).isLt
  have left : p.toNat < 2 ^ 128 := Nat.lt_trans p.isLt (by decide)
  have right : (vn v).toNat < 2 ^ 128 := Nat.lt_trans (vn v).isLt (by decide)
  rw [full, BitVec.toNat_mul, BitVec.toNat_setWidth, BitVec.toNat_setWidth, Nat.mod_eq_of_lt left,
    Nat.mod_eq_of_lt right, Nat.mod_eq_of_lt (Nat.lt_trans product (by decide))]
theorem toNat_vnHi (v : Word32) : (vnHi v).toNat = (vn v).toNat / 2 ^ 32 := by
  have high : (vn v).toNat / 2 ^ 32 < 2 ^ 32 := Nat.div_lt_of_lt_mul (vn v).isLt
  rw [vnHi, BitVec.toNat_setWidth, BitVec.toNat_ushiftRight, Nat.shiftRight_eq_div_pow, Nat.mod_eq_of_lt high]
theorem toNat_vnLo (v : Word32) : (vnLo v).toNat = (vn v).toNat % 2 ^ 32 := by
  rw [vnLo, BitVec.toNat_setWidth]

/-- The sum of the split products is the high part of the whole product, carry included. -/
theorem split_sum (v p : Word32) :
    p.toNat * (vnHi v).toNat + p.toNat * (vnLo v).toNat / 2 ^ 32 = p.toNat * (vn v).toNat / 2 ^ 32 := by
  have parts : p.toNat * (vn v).toNat = p.toNat * (vnLo v).toNat + p.toNat * (vnHi v).toNat * 2 ^ 32 := by
    rw [toNat_vnHi, toNat_vnLo, Nat.mul_assoc, ← Nat.mul_add, Nat.mul_comm (_ / _), Nat.mod_add_div]
  rw [parts, Nat.add_mul_div_right _ _ (by decide), Nat.add_comm]

theorem exact (v p : Word32) : Exact v p where
  vn := mul_wide v (~~~v)
  full := toNat_full v p
  term1 := mul_wide p (vnHi v)
  term2 := mul_wide p (vnLo v)
  sum := by
    have whole : p.toNat * (vn v).toNat < 2 ^ 32 * 2 ^ 64 := Nat.mul_lt_mul'' p.isLt (vn v).isLt
    have fits : (term1 v p).toNat + (term2 v p).toNat / 2 ^ 32 < 2 ^ 64 := by
      rw [term1, term2, mul_wide, mul_wide, split_sum]
      exact Nat.div_lt_of_lt_mul whole
    rw [BitVec.toNat_add, BitVec.toNat_ushiftRight, Nat.shiftRight_eq_div_pow, Nat.mod_eq_of_lt fits]

/-- Before the guard, the two forms keep the same 32 bits. -/
theorem split_result (v p : Word32) :
    (term1 v p + (term2 v p >>> 32)).setWidth 32 = (full v p >>> 32).setWidth 32 := by
  apply BitVec.eq_of_toNat_eq
  have e := exact v p
  rw [BitVec.toNat_setWidth, BitVec.toNat_setWidth, e.sum, e.term1, e.term2, split_sum, BitVec.toNat_ushiftRight,
    Nat.shiftRight_eq_div_pow, e.full]

/-- Both forms of `L` are one function. -/
theorem LSplit_eq : LSplit = L := by
  funext v p
  simp only [LSplit, L, split_result]

/-- `L` is the quotient, with one in place of zero. -/
theorem toNat_L (v p : Word32) : (L v p).toNat = if quotient v p = 0 then 1 else quotient v p := by
  have result : ((full v p >>> 32).setWidth 32 : Word32).toNat = quotient v p := by
    rw [BitVec.toNat_setWidth, BitVec.toNat_ushiftRight, Nat.shiftRight_eq_div_pow, toNat_full, toNat_vn, quotient,
      Nat.mul_assoc]
  by_cases zero : quotient v p = 0
  · have none : ((full v p >>> 32).setWidth 32 : Word32) = 0 := BitVec.eq_of_toNat_eq (by rw [result, zero]; rfl)
    simp [L, none, zero]
  · have some : ((full v p >>> 32).setWidth 32 : Word32) ≠ 0 := fun none => zero (by rw [← result, none]; rfl)
    rw [if_neg zero, ← result]
    simp only [L]
    rw [if_neg some]
    simp

/-- The tent map: folds on the sign bit, doubles, and keeps off zero. -/
def F (v : Word32) : Word32 :=
  let mask : Word32 := if v &&& 0x80000000 ≠ 0 then 0xFFFFFFFF else 0
  let folded := (v ^^^ mask) <<< 1
  if folded = 0 then folded ^^^ phiFrac else folded

/-- The bit mixer. -/
def R (w : Word32) : Word32 := rol32 w 13 ^^^ rol32 w 7 ^^^ (w >>> 3)

end Eahcm.Arithmetic
