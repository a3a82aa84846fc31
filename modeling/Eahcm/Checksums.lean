import Eahcm.Binary
import Eahcm.ShiftRegisters

/-!
What the checksum of the binary form catches. The checksum loop is a shift register over the bits
of the bytes, each byte from its lowest bit on, and the stored checksum goes on in that order: over
a whole blob that is accepted the register ends in one fixed value (`register_of_ok`). So no
change within 32 neighbouring bits (`burst_caught`) and no change of at most four bits
(`four_flips_caught`) leads from one accepted blob to another.
-/
namespace Eahcm.Checksums
open Eahcm.Types Eahcm.LittleEndian Eahcm.Binary Eahcm.XorLinear Eahcm.ShiftRegisters

/-- A bit of some bytes, each of them from its lowest bit on. -/
def bitAt (bytes : Bytes) (p : Nat) : Bool := (bytes[p / 8]?.getD 0).getLsbD (p % 8)
/-- The generator of the checksum, its lowest coefficient on top. -/
def generator : Word32 := 0xEDB88320
/-- The checksum register after all bits of a blob. -/
def register (b : Blob) : Word32 := run generator (bitAt b.val) 0xFFFFFFFF 352
/-- The bits in which two blobs differ. -/
def flipped (a b : Blob) : List Nat := flips (bitAt a.val) (bitAt b.val) 352

theorem crcBit_eq (crc : Word32) : crcBit crc = shift generator crc := by
  have low : crc &&& 1 = if crc.getLsbD 0 then 1 else 0 := BitVec.and_twoPow crc 0
  rw [crcBit, low, shift]
  cases crc.getLsbD 0 <;> rfl

theorem crcByte_eq (crc : Word32) (b : Byte) : crcByte crc b = (shift generator)^[8] (crc ^^^ b.setWidth 32) := by
  rw [crcByte, funext crcBit_eq]

theorem bitAt_byte {bytes : Bytes} {i : Nat} (inside : i < bytes.length) {j : Nat} (low : j < 8) :
    bitAt bytes (8 * i + j) = bytes[i].getLsbD j := by
  have index : (8 * i + j) / 8 = i := by omega
  have offset : (8 * i + j) % 8 = j := by omega
  simp [bitAt, index, offset, inside]

/-- The checksum loop over the first bytes is the register over their bits. -/
theorem foldl_crcByte (bytes : Bytes) (crc : Word32) {n : Nat} (inside : n ≤ bytes.length) :
    (bytes.take n).foldl crcByte crc = run generator (bitAt bytes) crc (8 * n) := by
  induction n with
  | zero => rfl
  | succ n ih =>
    have next := run_add generator (bitAt bytes) crc (8 * n) (show 8 ≤ 32 by decide) (bytes[n].setWidth 32)
      (fun j low => by
        rw [bitAt_byte (by omega) low, BitVec.getLsbD_setWidth]
        simp
        omega)
      (fun j high => by
        rw [BitVec.getLsbD_setWidth, BitVec.getLsbD_of_ge _ _ high, Bool.and_false])
    rw [List.take_succ_eq_append_getElem (by omega), List.foldl_append, ih (by omega), Nat.mul_succ, next]
    exact crcByte_eq _ _

/-- The four bytes of a stored word go into the register at once. -/
theorem run_word (bytes : Bytes) (crc : Word32) (n : Nat) :
    run generator (bitAt bytes) crc (8 * n + 32) =
      (shift generator)^[32] (run generator (bitAt bytes) crc (8 * n) ^^^ ofBytes 32 ((bytes.drop n).take 4)) := by
  refine run_add generator (bitAt bytes) crc (8 * n) (Nat.le_refl 32) _ (fun i inside => ?_) fun i beyond => ?_
  · have index : (8 * n + i) / 8 = n + i / 8 := by omega
    have offset : (8 * n + i) % 8 = i % 8 := by omega
    rw [getLsbD_ofBytes _ _ inside, List.getElem?_take_of_lt (by omega), List.getElem?_drop, bitAt, index, offset]
  · exact BitVec.getLsbD_of_ge _ _ beyond
/-- Of bytes with their own checksum behind them the register does not keep anything. -/
theorem run_checksum {bytes : Bytes} {n : Nat} (inside : n ≤ bytes.length)
    (stored : ofBytes 32 ((bytes.drop n).take 4) = crc32 (bytes.take n)) :
    run generator (bitAt bytes) 0xFFFFFFFF (8 * n + 32) = (shift generator)^[32] 0xFFFFFFFF := by
  have front := foldl_crcByte bytes 0xFFFFFFFF inside
  rw [run_word, stored, crc32, front]
  congr 1
  rw [← BitVec.xor_allOnes, ← BitVec.xor_assoc, BitVec.xor_self, BitVec.zero_xor]
  rfl

theorem register_of_ok {b : Blob} {s : State} (accepted : deserializeBinary b = .ok s) :
    register b = (shift generator)^[32] 0xFFFFFFFF := by
  have size : b.val.length = 44 := b.property
  have stored : wordOf b 10 = crc32 (b.val.take 40) := by
    have written := (accepted_iff b s).mp accepted
    rw [← written]
    exact wordOf_serializeBinary s rfl
  have all : 352 = 8 * 40 + 32 := by decide
  rw [wordOf, wordIn] at stored
  rw [register, all]
  exact run_checksum (by omega) stored

/-- Two accepted blobs leave the register the same. -/
theorem register_eq {a b : Blob} {s t : State} (first : deserializeBinary a = .ok s)
    (second : deserializeBinary b = .ok t) : register a = register b := by
  rw [register_of_ok first, register_of_ok second]

theorem eq_of_bits {a b : Blob} (same : ∀ p < 352, bitAt a.val p = bitAt b.val p) : a = b := by
  have size : a.val.length = 44 := a.property
  have size' : b.val.length = 44 := b.property
  apply Subtype.ext
  apply List.ext_getElem (by omega)
  intro i inside inside'
  apply BitVec.eq_of_getLsbD_eq
  intro j low
  rw [← bitAt_byte inside low, ← bitAt_byte inside' low]
  exact same _ (by omega)

theorem generator_top : generator.getLsbD (32 - 1) = true := by decide
/-- A sieve for the 351 distances between bits of a blob. -/
theorem generator_fewApart : fewApart generator.toNat (one 32).toNat 351 [4093, 4091, 4079, 4073, 4057, 4051] = true := by
  decide +kernel

theorem rejected_of_not_ok {b : Blob} (refused : ∀ s, deserializeBinary b ≠ .ok s) :
    ∃ what, deserializeBinary b = .error (.serializationError what) := by
  rcases deserializeBinary_cases b with rejected | ⟨s, accepted, _⟩
  · exact rejected
  · exact absurd accepted (refused s)

/-- Two accepted blobs that differ in no bit outside a window of 32 are the same. -/
theorem eq_of_window {a b : Blob} {s t : State} (first : deserializeBinary a = .ok s)
    (second : deserializeBinary b = .ok t) {start : Nat} (window : ∀ p ∈ flipped a b, start ≤ p ∧ p < start + 32) : a = b :=
  eq_of_bits (run_injective_window generator_top (fun p inside differ => window p (mem_flips.mpr ⟨inside, differ⟩))
    (register_eq first second))
/-- Two accepted blobs that differ in at most four bits are the same. -/
theorem eq_of_few {a b : Blob} {s t : State} (first : deserializeBinary a = .ok s)
    (second : deserializeBinary b = .ok t) (few : (flipped a b).length ≤ 4) : a = b :=
  eq_of_bits (run_injective_few generator_top generator_fewApart few (register_eq first second))

theorem bitAt_wordOf (b : Blob) (p : Nat) : bitAt b.val p = (wordOf b (p / 32)).getLsbD (p % 32) := by
  have index : 4 * (p / 32) + p % 32 / 8 = p / 8 := by omega
  have offset : p % 32 % 8 = p % 8 := by omega
  rw [wordOf, wordIn, getLsbD_ofBytes _ _ (Nat.mod_lt _ (by decide)), List.getElem?_take_of_lt (by omega),
    List.getElem?_drop, index, offset, bitAt]
/-- Two blobs with the same words but one differ in no bit outside that word. -/
theorem flipped_within {a b : Blob} {i : Nat} (same : ∀ j < 11, j ≠ i → wordOf a j = wordOf b j) :
    ∀ p ∈ flipped a b, 32 * i ≤ p ∧ p < 32 * i + 32 := by
  intro p flip
  obtain ⟨inside, differ⟩ := mem_flips.mp flip
  by_contra outside
  rw [bitAt_wordOf, bitAt_wordOf, same (p / 32) (by omega) (by omega)] at differ
  exact differ rfl

/-- A blob that differs from a serialized state in bits of four neighbouring bytes, or of any
    window of 32 bits, is refused. -/
theorem burst_caught (s : State) (b : Blob) (differs : b ≠ serializeBinary s) :
    (∀ start, (∀ p ∈ flipped (serializeBinary s) b, start ≤ p ∧ p < start + 32) →
        ∃ what, deserializeBinary b = .error (.serializationError what)) ∧
      ∀ i, (∀ j, j < i ∨ i + 4 ≤ j → b.val[j]? = (serializeBinary s).val[j]?) →
        ∃ what, deserializeBinary b = .error (.serializationError what) := by
  have caught (start : Nat) (window : ∀ p ∈ flipped (serializeBinary s) b, start ≤ p ∧ p < start + 32) :
      ∃ what, deserializeBinary b = .error (.serializationError what) := by
    apply rejected_of_not_ok
    intro t accepted
    exact differs (eq_of_window (deserializeBinary_serializeBinary s) accepted window).symm
  refine ⟨caught, fun i outside => caught (8 * i) fun p flip => ?_⟩
  have differ := (mem_flips.mp flip).2
  by_contra beyond
  have byte := outside (p / 8) (by omega)
  exact differ (by rw [bitAt, bitAt, byte])

/-- A serialized state with the last two bytes of its counter and the first two of its checksum
    overwritten. -/
theorem burst_caught_across : ∃ s b what, b ≠ serializeBinary s ∧
    b.val = (serializeBinary s).val.take 38 ++ [0xFF, 0xFF, 0xFF, 0xFF] ++ (serializeBinary s).val.drop 42 ∧
      wordOf b 0 = serializationVersion ∧ deserializeBinary b = .error (.serializationError what) := by
  let s : State := ⟨1, 2, 3, 4, paramFloor, paramFloor, paramFloor, paramFloor, 256⟩
  let b : Blob := ⟨(serializeBinary s).val.take 38 ++ [0xFF, 0xFF, 0xFF, 0xFF] ++ (serializeBinary s).val.drop 42, rfl⟩
  have differs : b ≠ serializeBinary s := by
    intro same
    exact absurd (congrArg (·.val[38]?) same) (by decide)
  obtain ⟨what, refused⟩ := (burst_caught s b differs).2 38 fun j outside => by
    have size : (serializeBinary s).val.length = 44 := (serializeBinary s).property
    change ((serializeBinary s).val.take 38 ++ [0xFF, 0xFF, 0xFF, 0xFF] ++ (serializeBinary s).val.drop 42)[j]? = _
    rcases outside with before | after
    · rw [List.append_assoc, List.getElem?_append_left (by rw [List.length_take]; omega), List.getElem?_take_of_lt before]
    · rw [List.getElem?_append_right (by simp [size]; omega), List.getElem?_drop]
      congr 1
      simp [size]
      omega
  exact ⟨s, b, what, differs, rfl, by decide, refused⟩

/-- One to four flipped bits are refused wherever they are, so accepted blobs are at least five
    bits apart. -/
theorem four_flips_caught :
    (∀ s b, 1 ≤ (flipped (serializeBinary s) b).length → (flipped (serializeBinary s) b).length ≤ 4 →
        ∃ what, deserializeBinary b = .error (.serializationError what)) ∧
      ∀ a b s t, deserializeBinary a = .ok s → deserializeBinary b = .ok t → a ≠ b → 5 ≤ (flipped a b).length := by
  constructor
  · intro s b some few
    apply rejected_of_not_ok
    intro t accepted
    rw [eq_of_few (deserializeBinary_serializeBinary s) accepted few] at some
    simp [flipped, flips] at some
  · intro a b s t first second differ
    by_contra near
    exact differ (eq_of_few first second (by omega))

end Eahcm.Checksums
