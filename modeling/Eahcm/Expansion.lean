import Eahcm.KeySchedule

/-!
HKDF-Expand at every length. The loop chains blocks, each the HMAC of the one before, the
context and the number of the block; with a functional HMAC the result is the front of all the
blocks of RFC 5869 (`hkdfExpand_rfc`), so a longer request begins with a shorter one.
-/
namespace Eahcm.Expansion
open Eahcm.Types Eahcm.KeySchedule
variable {σ : Type}

/-- Block `T(i)` of RFC 5869, `T(0)` the empty one. -/
def block (H : Bytes → Int → Bytes → Digest) (prk : Digest) (info : Bytes) : Nat → Bytes
  | 0 => []
  | i + 1 => (H prk.val 32 (block H prk info i ++ info ++ [BitVec.ofNat 8 (i + 1)])).val
/-- `T(1) || T(2) || ... || T(count)`. -/
def blocks (H : Bytes → Int → Bytes → Digest) (prk : Digest) (info : Bytes) (count : Nat) : Bytes :=
  (List.range' 1 count).flatMap (block H prk info)

section
variable (H : Bytes → Int → Bytes → Digest) (prk : Digest) (info : Bytes)

@[simp] theorem length_block (i : Nat) : (block H prk info (i + 1)).length = 32 := (H _ _ _).property

theorem blocks_succ (count : Nat) :
    blocks H prk info (count + 1) = blocks H prk info count ++ block H prk info (count + 1) := by
  rw [blocks, List.range'_concat, List.flatMap_append, blocks]
  simp [Nat.add_comm 1 count]
@[simp] theorem length_blocks (count : Nat) : (blocks H prk info count).length = 32 * count := by
  induction count with
  | zero => rfl
  | succ count ih => rw [blocks_succ, List.length_append, ih, length_block, Nat.mul_succ]

/-- Fewer blocks are the front of more. -/
theorem blocks_front {count more : Nat} (fewer : count ≤ more) : blocks H prk info count <+: blocks H prk info more := by
  induction more, fewer using Nat.le_induction with
  | base => exact List.prefix_refl _
  | succ more _ ih =>
    rw [blocks_succ]
    exact ih.trans (List.prefix_append _ _)

/-- A request of any length is the front of as many blocks as it needs. -/
theorem take_blocks {length count : Nat} (needed : (length + 31) / 32 ≤ count) :
    (blocks H prk info ((length + 31) / 32)).take length = (blocks H prk info count).take length := by
  obtain ⟨rest, whole⟩ := blocks_front H prk info needed
  have enough : length ≤ (blocks H prk info ((length + 31) / 32)).length := by
    rw [length_blocks]
    omega
  rw [← whole, List.take_append_of_le_length enough]
end

/-- The loop adds the blocks that are left to those it has. -/
theorem expandBlocks_computes {hmac : Hmac σ} {H : Bytes → Int → Bytes → Digest} (computes : Computes hmac H)
    (prk : Digest) (info : Bytes) (left done : Nat) (st : σ) :
    ∃ st', expandBlocks hmac prk.val info left (done + 1) (block H prk info done) (blocks H prk info done) st =
      (.ok (blocks H prk info (done + left)), st') := by
  induction left generalizing done st with
  | zero => exact ⟨st, rfl⟩
  | succ left ih =>
    have key : castInt prk.val.length = 32 := by rw [prk.property]; decide
    obtain ⟨st', answer⟩ := computes.answer prk.val 32 (block H prk info done ++ info ++ [BitVec.ofNat 8 (done + 1)]) st
    have ran : sha3256Hmac hmac prk.val (block H prk info done ++ info ++ [BitVec.ofNat 8 (done + 1)]) st =
        (.ok (H prk.val 32 (block H prk info done ++ info ++ [BitVec.ofNat 8 (done + 1)])), st') :=
      sha3256Hmac_some (by rw [key]; exact answer)
    obtain ⟨st'', rest⟩ := ih (done + 1) st'
    refine ⟨st'', (bind_ok ran _).trans ?_⟩
    rw [show done + (left + 1) = done + 1 + left by omega, ← rest, blocks_succ]
    rfl

theorem hkdfExpand_computes {hmac : Hmac σ} {H : Bytes → Int → Bytes → Digest} (computes : Computes hmac H)
    (prk : Digest) (info : Bytes) {length : Nat} (allowed : length ≤ 255 * 32) (st : σ) :
    ∃ st', hkdfExpand hmac prk.val info length st = (.ok ((blocks H prk info ((length + 31) / 32)).take length), st') := by
  obtain ⟨st', ran⟩ := expandBlocks_computes computes prk info ((length + 31) / 32) 0 st
  have short : ¬ length > 32 * 255 := by omega
  have enough : length - 32 * ((length + 31) / 32) = 0 := by omega
  rw [Nat.zero_add] at ran
  refine ⟨st', ?_⟩
  unfold hkdfExpand
  simp only [short, if_false]
  refine (bind_ok ran _).trans ?_
  simp [resize, enough]

theorem hkdfExpand_long (hmac : Hmac σ) (prk info : Bytes) {length : Nat} (long : 255 * 32 < length) (st : σ) :
    hkdfExpand hmac prk info length st =
      (.error (.invalidArgument "HKDF-Expand: requested length exceeds maximum"), st) := by
  have refused : length > 32 * 255 := by omega
  unfold hkdfExpand
  simp only [refused, if_true]
  rfl

/-- With a functional HMAC, expansion to at most 255 blocks is the front of the blocks of RFC 5869,
    of the length asked for, and the front of every longer expansion; the number of a block fits
    its byte. A longer request is refused without a call of the library. -/
theorem hkdfExpand_rfc {hmac : Hmac σ} {H : Bytes → Int → Bytes → Digest} (computes : Computes hmac H) (prk : Digest)
    (info : Bytes) (length : Nat) (st : σ) :
    (length ≤ 255 * 32 → ∃ okm st', hkdfExpand hmac prk.val info length st = (.ok okm, st') ∧ okm.length = length ∧
        okm <+: blocks H prk info ((length + 31) / 32) ∧
        (∀ i ≤ (length + 31) / 32, (BitVec.ofNat 8 i).toNat = i) ∧
        ∀ more ≤ 255 * 32, length ≤ more → ∀ stMore, ∃ okm' stMore',
          hkdfExpand hmac prk.val info more stMore = (.ok okm', stMore') ∧ okm = okm'.take length) ∧
      (255 * 32 < length → hkdfExpand hmac prk.val info length st =
        (.error (.invalidArgument "HKDF-Expand: requested length exceeds maximum"), st)) := by
  refine ⟨fun allowed => ?_, fun long => hkdfExpand_long hmac prk.val info long st⟩
  obtain ⟨st', ran⟩ := hkdfExpand_computes computes prk info allowed st
  refine ⟨_, st', ran, ?_, List.take_prefix _ _, fun i below => ?_, fun more allowed' longer stMore => ?_⟩
  · rw [List.length_take, length_blocks]
    omega
  · rw [BitVec.toNat_ofNat]
    omega
  · obtain ⟨stMore', ranMore⟩ := hkdfExpand_computes computes prk info allowed' stMore
    refine ⟨_, stMore', ranMore, ?_⟩
    rw [List.take_take, Nat.min_eq_left longer]
    exact take_blocks H prk info (by omega)

/-- The state block of the reference vector, and the 16 bytes that it begins with. -/
theorem hkdfExpand_rfc_reference : ∃ okm,
    hkdfExpand (pureHmac referenceHmac) (digestOf 0xc74fcaaf83df46a81983fc9cd438cfe4139339ac14076d1174377cc19f961981).val
        (buildInfo [] "-state-init") 16 () = (.ok okm, ()) ∧
      hkdfExpand (pureHmac referenceHmac) (digestOf 0xc74fcaaf83df46a81983fc9cd438cfe4139339ac14076d1174377cc19f961981).val
          (buildInfo [] "-state-init") 32 () =
        (.ok (digestOf 0x5855acba5e68d1298909ec8bcf2b72ac5534b87c2c966a62695e3bbcade87a28).val, ()) ∧
        okm = (digestOf 0x5855acba5e68d1298909ec8bcf2b72ac5534b87c2c966a62695e3bbcade87a28).val.take 16 := by
  have computes := pureHmac_computes referenceHmac
  obtain ⟨short, -⟩ := hkdfExpand_rfc computes
    (digestOf 0xc74fcaaf83df46a81983fc9cd438cfe4139339ac14076d1174377cc19f961981) (buildInfo [] "-state-init") 16 ()
  obtain ⟨whole, -⟩ := hkdfExpand_rfc computes
    (digestOf 0xc74fcaaf83df46a81983fc9cd438cfe4139339ac14076d1174377cc19f961981) (buildInfo [] "-state-init") 32 ()
  obtain ⟨okm, ⟨⟩, ran, _, _, _, front⟩ := short (by decide)
  obtain ⟨okm', ⟨⟩, ran', length, begins, _⟩ := whole (by decide)
  obtain ⟨_, _, again, same⟩ := front 32 (by decide) (by decide) ()
  have block : okm' = (digestOf 0x5855acba5e68d1298909ec8bcf2b72ac5534b87c2c966a62695e3bbcade87a28).val := by
    rw [begins.eq_of_length (by rw [length, length_blocks])]
    decide +kernel
  rw [ran'] at again
  cases again
  rw [block] at ran' same
  exact ⟨okm, ran, ran', same⟩

end Eahcm.Expansion
