import Mathlib.Algebra.Ring.Nat
import Mathlib.Data.List.Basic

/-!
The bytes of a word of any width, the least significant first, and the word that a sequence
of bytes spells. Bit `i` of the word is bit `i % 8` of byte `i / 8`, which makes the two
maps inverse on widths of whole bytes.
-/
namespace Eahcm.LittleEndian

/-- Byte `i` of a word. -/
def byteAt {w : Nat} (word : BitVec w) (i : Nat) : BitVec 8 := (word >>> (8 * i)).setWidth 8
/-- The first `count` bytes of a word. -/
def toBytes {w : Nat} (count : Nat) (word : BitVec w) : List (BitVec 8) := (List.range count).map (byteAt word)
/-- The word that bytes spell; bytes beyond its width are dropped. -/
def ofBytes (w : Nat) : List (BitVec 8) → BitVec w
  | [] => 0
  | b :: rest => b.setWidth w ||| ofBytes w rest <<< 8

@[simp] theorem length_toBytes {w : Nat} (count : Nat) (word : BitVec w) : (toBytes count word).length = count := by
  simp [toBytes]

theorem toBytes_succ {w : Nat} (count : Nat) (word : BitVec w) :
    toBytes (count + 1) word = toBytes count word ++ [byteAt word count] := by
  simp [toBytes, List.range_succ]

theorem getLsbD_byteAt {w : Nat} (word : BitVec w) (i j : Nat) (inside : j < 8) :
    (byteAt word i).getLsbD j = word.getLsbD (8 * i + j) := by
  simp [byteAt, inside]

/-- Bit `i` of the word that bytes spell. -/
theorem getLsbD_ofBytes {w : Nat} (bytes : List (BitVec 8)) (i : Nat) (inside : i < w) :
    (ofBytes w bytes).getLsbD i = ((bytes[i / 8]?).getD 0).getLsbD (i % 8) := by
  induction bytes generalizing i with
  | nil => simp [ofBytes]
  | cons b rest ih =>
    by_cases low : i < 8
    · have first : i / 8 = 0 := by omega
      have same : i % 8 = i := by omega
      simp [ofBytes, low, first, same, inside]
    · have later : i / 8 = (i - 8) / 8 + 1 := by omega
      have same : i % 8 = (i - 8) % 8 := by omega
      have past : b.getLsbD i = false := BitVec.getLsbD_of_ge b i (by omega)
      have tail := ih (i - 8) (by omega)
      simp only [ofBytes, BitVec.getLsbD_or, BitVec.getLsbD_setWidth, BitVec.getLsbD_shiftLeft, past, tail]
      simp [low, later, same, inside]

/-- A word of whole bytes is read back from its bytes. -/
theorem ofBytes_toBytes {w : Nat} (count : Nat) (word : BitVec w) (covers : w ≤ 8 * count) :
    ofBytes w (toBytes count word) = word := by
  apply BitVec.eq_of_getLsbD_eq
  intro i inside
  have index : i / 8 < count := by omega
  have split : 8 * (i / 8) + i % 8 = i := Nat.div_add_mod i 8
  rw [getLsbD_ofBytes _ _ inside]
  simp [toBytes, index, getLsbD_byteAt _ _ _ (Nat.mod_lt i (by decide)), split]

/-- Bytes that fit a word are read back from it. -/
theorem toBytes_ofBytes {w : Nat} (bytes : List (BitVec 8)) (fits : 8 * bytes.length ≤ w) :
    toBytes bytes.length (ofBytes w bytes) = bytes := by
  apply List.ext_getElem (by simp)
  intro i _ inside
  apply BitVec.eq_of_getLsbD_eq
  intro j low
  have index : (8 * i + j) / 8 = i := by omega
  have offset : (8 * i + j) % 8 = j := by omega
  simp [toBytes, getLsbD_byteAt _ _ _ low, getLsbD_ofBytes _ (8 * i + j) (by omega : 8 * i + j < w), index, offset, inside]

theorem toBytes_injective {w : Nat} (count : Nat) (covers : w ≤ 8 * count) :
    Function.Injective (toBytes (w := w) count) := by
  intro a b same
  rw [← ofBytes_toBytes count a covers, same, ofBytes_toBytes count b covers]

/-- Word `i` of an array of words of `size` bytes. -/
def wordIn (w size : Nat) (bytes : List (BitVec 8)) (i : Nat) : BitVec w := ofBytes w ((bytes.drop (size * i)).take size)

/-- An array that is a whole number of words long is the bytes of its words. -/
theorem flatMap_wordIn {w : Nat} (size : Nat) (fits : 8 * size ≤ w) (count : Nat) (bytes : List (BitVec 8))
    (exactly : bytes.length = size * count) :
    ((List.range count).map (wordIn w size bytes)).flatMap (toBytes size) = bytes := by
  induction count generalizing bytes with
  | zero =>
    have : bytes = [] := List.length_eq_zero_iff.mp (by simpa using exactly)
    simp [this]
  | succ count ih =>
    have rest := ih (bytes.drop size) (by rw [List.length_drop, exactly, Nat.mul_succ, Nat.add_sub_cancel])
    have later : wordIn w size (bytes.drop size) = wordIn w size bytes ∘ Nat.succ := by
      funext i
      rw [Function.comp_apply, wordIn, wordIn, List.drop_drop, Nat.mul_succ, Nat.add_comm]
    have head : toBytes size (wordIn w size bytes 0) = bytes.take size := by
      have whole : (bytes.take size).length = size := by
        rw [List.length_take, exactly, Nat.mul_succ]
        omega
      have back := toBytes_ofBytes (w := w) (bytes.take size) (by rw [whole]; exact fits)
      rw [whole] at back
      simpa [wordIn] using back
    rw [List.range_succ_eq_map, List.map_cons, List.flatMap_cons, List.map_map, head, ← later]
    conv => rhs; rw [← List.take_append_drop size bytes, ← rest]

/-- The words of an array made of words. -/
theorem wordIn_flatMap {w : Nat} (size : Nat) (covers : w ≤ 8 * size) (words : List (BitVec w)) (after : List (BitVec 8))
    {i : Nat} (inside : i < words.length) :
    wordIn w size (words.flatMap (toBytes size) ++ after) i = words[i] := by
  induction words generalizing i with
  | nil => simp at inside
  | cons word rest ih =>
    cases i with
    | zero => simp [wordIn, ofBytes_toBytes size word covers]
    | succ i =>
      have tail := ih (by simpa using inside)
      rw [List.getElem_cons_succ, ← tail, wordIn, wordIn, List.flatMap_cons, List.append_assoc, Nat.mul_succ,
        Nat.add_comm (size * i) size, ← List.drop_drop]
      simp

end Eahcm.LittleEndian
