import Eahcm.Checksums
import Eahcm.Fibres
import Eahcm.Influences
import Eahcm.Sessions

/-!
What the checksum of the binary form lets pass. It respects exclusive or, so the masks that lead
from one exported state to another that is accepted are the same for all states: one mask for each
difference of two states, and no others (`tampered_import`). A mask that complements a word of the
state can be written down without knowing any state, and what it does to the next word of keystream
is known in advance (`forged_complements`). All words but one may be chosen freely, and one value of
that one makes up for the choice (`one_word_repairs`).
-/
namespace Eahcm.Forgeries
open Eahcm.Types Eahcm.LittleEndian Eahcm.Binary Eahcm.XorLinear Eahcm.ShiftRegisters Eahcm.Checksums Eahcm.States
  Eahcm.Ciphers Eahcm.Differences Eahcm.Influences Eahcm.Outputs Eahcm.Sessions

theorem length_xorBlob (b m : Blob) : (xorLists b.val m.val).length = serializedBinarySize := by
  rw [length_xorLists, b.property, m.property, Nat.min_self]
/-- A blob with the bits of a mask flipped. -/
def xorBlob (b m : Blob) : Blob := ⟨xorLists b.val m.val, length_xorBlob b m⟩
/-- The difference of two states, and a state with the bits of a difference flipped. -/
def xorState (s d : State) : State where
  x := s.x ^^^ d.x
  y := s.y ^^^ d.y
  z := s.z ^^^ d.z
  w := s.w ^^^ d.w
  alpha := s.alpha ^^^ d.alpha
  gamma := s.gamma ^^^ d.gamma
  mu := s.mu ^^^ d.mu
  sigma := s.sigma ^^^ d.sigma
  counter := s.counter ^^^ d.counter
/-- The bits in which the binary forms of two states differ, of states with a given difference. -/
def mask (d : State) : Blob := xorBlob (serializeBinary d) (serializeBinary {})

theorem xorState_cancel (s t : State) : xorState s (xorState s t) = t := by
  simp only [xorState, ← BitVec.xor_assoc, BitVec.xor_self, BitVec.zero_xor]
theorem xorBlob_cancel (b m : Blob) : xorBlob b (xorBlob b m) = m :=
  Subtype.ext (xorLists_cancel (b.property.trans m.property.symm))
theorem xorBlob_comm (a b : Blob) : xorBlob a b = xorBlob b a := Subtype.ext (xorLists_comm a.val b.val)
theorem xorBlob_assoc (a b c : Blob) : xorBlob (xorBlob a b) c = xorBlob a (xorBlob b c) :=
  Subtype.ext (xorLists_assoc a.val b.val c.val)

theorem crcByte_xor (r r' : Word32) (a b : Byte) : crcByte (r ^^^ r') (a ^^^ b) = crcByte r a ^^^ crcByte r' b := by
  rw [crcByte_eq, crcByte_eq, crcByte_eq, ← (shift_additive generator).iterate, BitVec.setWidth_xor]
  congr 1
  ac_rfl
/-- Of three sequences of bytes of one length, the checksum of the exclusive or is that of the checksums. -/
theorem crc32_xor {a b c : Bytes} (first : a.length = b.length) (second : b.length = c.length) :
    crc32 (xorLists a (xorLists b c)) = crc32 a ^^^ (crc32 b ^^^ crc32 c) := by
  have start : (0xFFFFFFFF : Word32) = 0xFFFFFFFF ^^^ (0xFFFFFFFF ^^^ 0xFFFFFFFF) := by decide
  have inner : a.length = (xorLists b c).length := by rw [length_xorLists, second, Nat.min_self, first, second]
  have folded : (xorLists a (xorLists b c)).foldl crcByte 0xFFFFFFFF =
      a.foldl crcByte 0xFFFFFFFF ^^^ (b.foldl crcByte 0xFFFFFFFF ^^^ c.foldl crcByte 0xFFFFFFFF) := by
    conv => lhs; rw [start]
    rw [foldl_xorLists crcByte_xor inner, foldl_xorLists crcByte_xor second]
  have pair (u v : Word32) : ~~~u ^^^ ~~~v = u ^^^ v := by
    rw [← BitVec.not_xor_left, ← BitVec.not_xor_right, BitVec.not_not]
  rw [crc32, crc32, crc32, crc32, folded, BitVec.not_xor_left, pair]

theorem storeLe32_xor (u v : Word32) : storeLe32 (u ^^^ v) = xorLists (storeLe32 u) (storeLe32 v) := by
  simp [storeLe32, xorLists, BitVec.ushiftRight_xor_distrib]
theorem flatMap_xorLists {us vs : List Word32} (sizes : us.length = vs.length) :
    (xorLists us vs).flatMap storeLe32 = xorLists (us.flatMap storeLe32) (vs.flatMap storeLe32) := by
  induction us generalizing vs with
  | nil => rfl
  | cons u us ih =>
    cases vs with
    | nil => cases sizes
    | cons v vs =>
      rw [List.flatMap_cons, List.flatMap_cons, xorLists_append (by rfl), ← storeLe32_xor, ← ih (Nat.succ.inj sizes)]
      rfl

theorem fields_xorState (s d : State) : fields (xorState s d) = xorLists (fields s) (xorLists (fields d) (fields {})) := by
  simp [fields, xorState, xorLists]
theorem versionAndState_xorState (s d : State) :
    versionAndState (xorState s d) = xorLists (versionAndState s) (xorLists (versionAndState d) (versionAndState {})) := by
  have version : storeLe32 serializationVersion =
      xorLists (storeLe32 serializationVersion)
        (xorLists (storeLe32 serializationVersion) (storeLe32 serializationVersion)) := by decide
  rw [versionAndState, versionAndState, versionAndState, versionAndState, xorLists_append (by rfl), xorLists_append (by rfl),
    ← version, fields_xorState, flatMap_xorLists (by rfl), flatMap_xorLists (by rfl)]
theorem serializeBinary_xorState (s d : State) :
    serializeBinary (xorState s d) = xorBlob (serializeBinary s) (mask d) := by
  apply Subtype.ext
  change versionAndState (xorState s d) ++ storeLe32 (crc32 (versionAndState (xorState s d))) =
    xorLists (versionAndState s ++ storeLe32 (crc32 (versionAndState s)))
      (xorLists (versionAndState d ++ storeLe32 (crc32 (versionAndState d)))
        (versionAndState {} ++ storeLe32 (crc32 (versionAndState {}))))
  rw [xorLists_append (by rfl), xorLists_append (by rfl), versionAndState_xorState, crc32_xor (by rfl) (by rfl), storeLe32_xor,
    storeLe32_xor]

theorem mask_xorState (d e : State) : mask (xorState d e) = xorBlob (mask d) (mask e) := by
  rw [mask, serializeBinary_xorState, xorBlob_assoc, xorBlob_comm (mask e), ← xorBlob_assoc]
  rfl
/-- The bits flipped in an exported state lead to another state exactly when they are the mask of the
    difference. -/
theorem deserializeBinary_xorBlob (s t : State) (m : Blob) :
    deserializeBinary (xorBlob (serializeBinary s) m) = .ok t ↔ m = mask (xorState s t) := by
  have target : serializeBinary t = xorBlob (serializeBinary s) (mask (xorState s t)) := by
    rw [← serializeBinary_xorState, xorState_cancel]
  rw [accepted_iff, target]
  constructor
  · intro same
    rw [← xorBlob_cancel (serializeBinary s) m, ← same, xorBlob_cancel]
  · rintro rfl
    rfl
theorem mask_injective : Function.Injective mask := by
  intro d e same
  have forms : serializeBinary (xorState {} d) = serializeBinary (xorState {} e) := by
    rw [serializeBinary_xorState, serializeBinary_xorState, same]
  rw [← xorState_cancel {} d, ← xorState_cancel {} e, serializeBinary_injective forms]

/-- What one object exports and another imports with bits flipped on the way. -/
def tampered (sender : Cipher) (m : Blob) (receiver : Cipher) : Response × Cipher :=
  serve (.importState (xorBlob (exportState sender) m)) receiver

theorem tampered_mask (sender receiver : Cipher) (d : State) :
    tampered sender (mask d) receiver = (.done, install receiver (xorState sender.state d)) := by
  have decoded := (deserializeBinary_xorBlob sender.state (xorState sender.state d) (mask d)).mpr
    (by rw [xorState_cancel])
  rw [tampered, serve, importState, exportState, decoded]
  rfl

/-- Flipped bits in an exported state get past an import exactly when they are the mask of a difference
    of two states, whatever state was exported; the object then continues with the two states' difference.
    Different differences have different masks, and the mask of two differences in a row is that of both. -/
theorem tampered_import (sender receiver : Cipher) (m : Blob) :
    (∀ d, m = mask d → tampered sender m receiver = (.done, install receiver (xorState sender.state d))) ∧
      ((∀ d, m ≠ mask d) → ∃ what, tampered sender m receiver = (.thrown (.serializationError what), receiver)) ∧
        Function.Injective mask ∧ ∀ d e, mask (xorState d e) = xorBlob (mask d) (mask e) := by
  refine ⟨?_, fun others => ?_, mask_injective, mask_xorState⟩
  · rintro d rfl
    exact tampered_mask sender receiver d
  · rcases deserializeBinary_cases (xorBlob (exportState sender) m) with ⟨what, refused⟩ | ⟨t, accepted, _⟩
    · refine ⟨what, ?_⟩
      rw [tampered, serve, importState, refused]
      rfl
    · exact absurd ((deserializeBinary_xorBlob sender.state t m).mp accepted) (others _)

/-- One mask, the same for every exported state, makes the next word of keystream after an import differ
    from the genuine one in both halves; another in its lower half and nowhere else. -/
theorem forged_complements : ∃ first third : Blob, ∀ sender receiver, ∃ genuine forged other,
    serve (.importState (exportState sender)) receiver = (.done, genuine) ∧
      tampered sender first receiver = (.done, forged) ∧ tampered sender third receiver = (.done, other) ∧
      (outHi (next forged).1 ≠ outHi (next genuine).1 ∧ outLo (next forged).1 ≠ outLo (next genuine).1) ∧
        outHi (next other).1 = outHi (next genuine).1 ∧ outLo (next other).1 ≠ outLo (next genuine).1 := by
  refine ⟨mask { x := 0xFFFFFFFF }, mask { z := 0xFFFFFFFF }, fun sender receiver => ?_⟩
  have flip (a : Word32) : a ^^^ 0xFFFFFFFF#32 = ~~~a := BitVec.xor_allOnes
  have first : xorState sender.state { x := 0xFFFFFFFF } = notX sender.state := by
    simp [xorState, notX, flip]
  have third : xorState sender.state { z := 0xFFFFFFFF } = notZ sender.state := by
    simp [xorState, notZ, flip]
  refine ⟨_, _, _, serve_importState_serializeBinary receiver sender.state, tampered_mask sender receiver _,
    tampered_mask sender receiver _, ?_⟩
  rw [first, third]
  obtain ⟨x, y, z, w⟩ := words_step_notX sender.state
  obtain ⟨x', y', z', w'⟩ := words_step_notZ sender.state
  exact ⟨extract_y x y z w, extract_w x' y' z' w'⟩

/-- The state with another word in one place of the binary form, the first word of the state in place 0. -/
def withField (s : State) : Nat → Word32 → State
  | 0, v => { s with x := v }
  | 1, v => { s with y := v }
  | 2, v => { s with z := v }
  | 3, v => { s with w := v }
  | 4, v => { s with alpha := v }
  | 5, v => { s with gamma := v }
  | 6, v => { s with mu := v }
  | 7, v => { s with sigma := v }
  | 8, v => { s with counter := v }
  | _, _ => s

theorem fields_withField (s : State) (i : Nat) (v : Word32) : fields (withField s i v) = (fields s).set i v := by
  match i with
  | 0 | 1 | 2 | 3 | 4 | 5 | 6 | 7 | 8 => rfl
  | _ + 9 => rfl
theorem wordOf_of_set {a b : Blob} {i : Nat} {v : Word32} (set : wordList a = (wordList b).set i v) :
    ∀ j < 11, j ≠ i → wordOf a j = wordOf b j := by
  intro j inside other
  have here := congrArg (·[j]?) set
  simp only [List.getElem?_set_ne (Ne.symm other), getElem?_wordList _ inside, Option.some.injEq] at here
  exact here

/-- With eight of the nine words of a state given, the ninth gives every checksum once. -/
theorem checksum_bijective (s : State) {i : Nat} (inside : i < 9) :
    Function.Bijective fun v => crc32 (versionAndState (withField s i v)) := by
  refine Finite.injective_iff_bijective.mp fun v v' same => ?_
  have set (v : Word32) : wordList (serializeBinary (withField s i v)) =
      (serializationVersion :: fields s ++ [crc32 (versionAndState (withField s i v))]).set (i + 1) v := by
    rw [wordList_serializeBinary, fields_withField, List.cons_append, List.cons_append, List.set_cons_succ,
      List.set_append_left _ _ (show i < (fields s).length from inside)]
  have again : wordList (serializeBinary (withField s i v)) =
      (wordList (serializeBinary (withField s i v'))).set (i + 1) v := by
    rw [set, set, List.set_set]
    exact congrArg (fun c => (serializationVersion :: fields s ++ [c]).set (i + 1) v) same
  have blobs := eq_of_window (deserializeBinary_serializeBinary _) (deserializeBinary_serializeBinary _)
    (flipped_within (wordOf_of_set again))
  have states := congrArg fields (serializeBinary_injective blobs)
  rw [fields_withField, fields_withField] at states
  have here := congrArg (·[i]?) states
  simp only [List.getElem?_set_self (show i < (fields s).length from inside), Option.some.injEq] at here
  exact here

/-- Of the words of an exported state all but the version may be chosen but one: whichever that is, there is
    exactly one value of it that the import accepts with the others. -/
theorem one_word_repairs {b : Blob} (version : wordOf b 0 = serializationVersion) {i : Nat} (low : 1 ≤ i)
    (high : i ≤ 10) :
    ∃! b' : Blob, (∀ j < 11, j ≠ i → wordOf b' j = wordOf b j) ∧ ∃ s, deserializeBinary b' = .ok s := by
  have list : wordList b = serializationVersion :: fields (stateIn b) ++ [wordOf b 10] := by
    rw [← version]
    rfl
  have repaired : ∃ s v, wordList (serializeBinary s) = (wordList b).set i v := by
    by_cases last : i = 10
    · refine ⟨stateIn b, crc32 (versionAndState (stateIn b)), ?_⟩
      rw [wordList_serializeBinary, list, last]
      rfl
    · obtain ⟨place, rfl⟩ : ∃ place, i = place + 1 := ⟨i - 1, by omega⟩
      have inside : place < (fields (stateIn b)).length := show place < 9 by omega
      obtain ⟨v, sum⟩ := (checksum_bijective (stateIn b) inside).surjective (wordOf b 10)
      refine ⟨withField (stateIn b) place v, v, ?_⟩
      simp only at sum
      rw [wordList_serializeBinary, sum, list, fields_withField, List.cons_append, List.cons_append, List.set_cons_succ,
        List.set_append_left _ _ inside]
  obtain ⟨s, v, set⟩ := repaired
  refine ⟨serializeBinary s, ⟨wordOf_of_set set, s, deserializeBinary_serializeBinary s⟩, ?_⟩
  rintro other ⟨same, s', accepted⟩
  have agree : ∀ j < 11, j ≠ i → wordOf other j = wordOf (serializeBinary s) j := by
    intro j inside apart
    rw [same j inside apart, wordOf_of_set set j inside apart]
  exact eq_of_window accepted (deserializeBinary_serializeBinary s) (flipped_within agree)

/-- A blob of zeros but for the version, its second word to be repaired. -/
theorem one_word_repairs_zeros : ∃! b' : Blob, (∀ j < 11, j ≠ 1 → wordOf b' j = wordOf ⟨1 :: List.replicate 43 0, rfl⟩ j) ∧
    ∃ s, deserializeBinary b' = .ok s :=
  one_word_repairs (b := ⟨1 :: List.replicate 43 0, rfl⟩) (by decide) (by decide) (by decide)

end Eahcm.Forgeries
