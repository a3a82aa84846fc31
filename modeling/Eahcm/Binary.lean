import Mathlib.Logic.Function.Iterate
import Eahcm.Types

/-!
The binary form of a state (`serialization.cpp`): eleven little-endian words, which are the
version, the nine words of the state, and the CRC-32 of all bytes before it. The forms that
the decoder accepts are exactly those the encoder writes, one for each state.
-/
namespace Eahcm.Binary
open Eahcm.Types Eahcm.LittleEndian

def serializationVersion : Word32 := 1
def serializedBinarySize : Nat := 44
/-- A span or an array of the size of the binary form. -/
abbrev Blob := { data : Bytes // data.length = serializedBinarySize }

/-- One bit of the checksum loop. -/
def crcBit (crc : Word32) : Word32 := (crc >>> 1) ^^^ (0xEDB88320 &&& (~~~(crc &&& 1) + 1))
/-- One byte of the checksum loop. -/
def crcByte (crc : Word32) (b : Byte) : Word32 := crcBit^[8] (crc ^^^ b.setWidth 32)
def crc32 (data : Bytes) : Word32 := ~~~(data.foldl crcByte 0xFFFFFFFF)

-- the check value of CRC-32
example : crc32 [0x31, 0x32, 0x33, 0x34, 0x35, 0x36, 0x37, 0x38, 0x39] = 0xCBF43926 := by
  decide +kernel

/-- The words of a state in the order of the binary form. -/
def fields (s : State) : List Word32 := [s.x, s.y, s.z, s.w, s.alpha, s.gamma, s.mu, s.sigma, s.counter]
/-- The version and the state, the first forty bytes of the binary form. -/
def versionAndState (s : State) : Bytes := storeLe32 serializationVersion ++ (fields s).flatMap storeLe32
def serializeBinary (s : State) : Blob :=
  ⟨versionAndState s ++ storeLe32 (crc32 (versionAndState s)), rfl⟩

def binaryVersionMismatch (ver : Word32) : Fault :=
  .serializationError ("Binary version mismatch: expected " ++ toString serializationVersion.toNat ++
    ", got " ++ toString ver.toNat)
def binaryChecksumMismatch : Fault := .serializationError "Binary checksum mismatch"

/-- The comparison of the checksums runs over the bytes that store them. -/
def deserializeBinary (data : Blob) : Except Fault State := do
  let ver ← loadLe32 data.val 0
  if ver ≠ serializationVersion then throw (binaryVersionMismatch ver)
  let x ← loadLe32 data.val 4
  let y ← loadLe32 data.val 8
  let z ← loadLe32 data.val 12
  let w ← loadLe32 data.val 16
  let alpha ← loadLe32 data.val 20
  let gamma ← loadLe32 data.val 24
  let mu ← loadLe32 data.val 28
  let sigma ← loadLe32 data.val 32
  let counter ← loadLe32 data.val 36
  let storedCrc ← loadLe32 data.val 40
  let computedCrc := crc32 (← readRange data.val 40)
  if !secureCompare (storeLe32 storedCrc) (storeLe32 computedCrc) then throw binaryChecksumMismatch
  return { x, y, z, w, alpha, gamma, mu, sigma, counter }

/-- Word `i` of a blob. -/
def wordOf (b : Blob) (i : Nat) : Word32 := wordIn 32 4 b.val i
/-- The state that the words of a blob spell. -/
def stateIn (b : Blob) : State where
  x := wordOf b 1
  y := wordOf b 2
  z := wordOf b 3
  w := wordOf b 4
  alpha := wordOf b 5
  gamma := wordOf b 6
  mu := wordOf b 7
  sigma := wordOf b 8
  counter := wordOf b 9

theorem storeLe32_toBytes : storeLe32 = toBytes 4 := funext storeLe32_eq

theorem loadLe32_blob (b : Blob) {i : Nat} (inside : i < 11) : loadLe32 b.val (4 * i) = .ok (wordOf b i) := by
  have size : b.val.length = 44 := b.property
  exact loadLe32_inside (by omega)

/-- The bytes of the first words of a blob. -/
theorem flatMap_wordOf (b : Blob) {count : Nat} (inside : count ≤ 11) :
    ((List.range count).map (wordOf b)).flatMap storeLe32 = b.val.take (4 * count) := by
  have size : b.val.length = 44 := b.property
  have whole := flatMap_wordIn (w := 32) 4 (by decide) count (b.val.take (4 * count)) (by simp; omega)
  rw [storeLe32_toBytes, ← whole]
  congr 1
  refine List.map_congr_left fun i below => ?_
  have below : i < count := List.mem_range.mp below
  rw [wordOf, wordIn, wordIn, List.drop_take, List.take_take, Nat.min_eq_left (by omega)]

/-- The words of the binary form of a state. -/
theorem wordOf_serializeBinary (s : State) {i : Nat} {word : Word32}
    (here : (serializationVersion :: fields s ++ [crc32 (versionAndState s)])[i]? = some word) :
    wordOf (serializeBinary s) i = word := by
  obtain ⟨inside, rfl⟩ := List.getElem?_eq_some_iff.mp here
  have words := wordIn_flatMap (w := 32) 4 (by decide)
    (serializationVersion :: fields s ++ [crc32 (versionAndState s)]) [] inside
  have bytes : (serializeBinary s).val =
      (serializationVersion :: fields s ++ [crc32 (versionAndState s)]).flatMap (toBytes 4) ++ [] := by
    rw [← storeLe32_toBytes, List.append_nil, List.cons_append, List.flatMap_cons, List.flatMap_append,
      List.flatMap_singleton, ← List.append_assoc]
    rfl
  rw [wordOf, bytes, words]

/-- The words of a blob, from its first. -/
def wordList (b : Blob) : List Word32 := (List.range 11).map (wordOf b)

theorem getElem?_wordList (b : Blob) {i : Nat} (inside : i < 11) : (wordList b)[i]? = some (wordOf b i) := by
  rw [wordList, List.getElem?_map, List.getElem?_range inside]
  rfl
theorem wordList_eq {b : Blob} {words : List Word32} (eleven : words.length = 11)
    (each : ∀ i word, words[i]? = some word → wordOf b i = word) : wordList b = words := by
  apply List.ext_getElem?
  intro i
  by_cases inside : i < 11
  · have found := List.getElem?_eq_getElem (show i < words.length by omega)
    rw [getElem?_wordList b inside, found, each i _ found]
  · rw [List.getElem?_eq_none (by rw [wordList, List.length_map, List.length_range]; omega),
      List.getElem?_eq_none (by omega)]
theorem wordList_serializeBinary (s : State) :
    wordList (serializeBinary s) = serializationVersion :: fields s ++ [crc32 (versionAndState s)] :=
  wordList_eq rfl fun _ _ => wordOf_serializeBinary s

/-- The decoder on any blob: the version is compared first, then the checksum. -/
theorem deserializeBinary_eq (b : Blob) :
    deserializeBinary b =
      if wordOf b 0 ≠ serializationVersion then .error (binaryVersionMismatch (wordOf b 0))
      else if wordOf b 10 ≠ crc32 (b.val.take 40) then .error binaryChecksumMismatch
      else .ok (stateIn b) := by
  have size : b.val.length = 44 := b.property
  have word (i : Nat) (inside : i < 11) := loadLe32_blob b inside
  simp only [deserializeBinary, word 0 (by decide), word 1 (by decide), word 2 (by decide), word 3 (by decide),
    word 4 (by decide), word 5 (by decide), word 6 (by decide), word 7 (by decide), word 8 (by decide),
    word 9 (by decide), word 10 (by decide), readRange_inside (show 40 ≤ b.val.length by omega)]
  by_cases version : wordOf b 0 = serializationVersion
  · have compared : secureCompare (storeLe32 (wordOf b 10)) (storeLe32 (crc32 (b.val.take 40))) = true ↔
        wordOf b 10 = crc32 (b.val.take 40) := by
      rw [secureCompare_iff (by simp), storeLe32_toBytes]
      exact (toBytes_injective 4 (by decide)).eq_iff
    rw [if_neg (not_not_intro version)]
    by_cases sum : wordOf b 10 = crc32 (b.val.take 40)
    · rw [if_neg (not_not_intro sum)]
      simp only [bind, Except.bind, version, ne_eq, not_true_eq_false, if_false, compared.mpr sum, Bool.not_true,
        Bool.false_eq_true]
      rfl
    · have differ := Bool.eq_false_iff.mpr (mt compared.mp sum)
      rw [if_pos sum]
      simp only [bind, Except.bind, version, ne_eq, not_true_eq_false, if_false, differ, Bool.not_false, if_true]
      rfl
  · rw [if_pos version]
    simp only [bind, Except.bind, ne_eq, version, not_false_eq_true, if_true]
    rfl

/-- What the decoder accepts is written back byte for byte. -/
theorem serializeBinary_of_ok {b : Blob} {s : State} (accepted : deserializeBinary b = .ok s) : serializeBinary s = b := by
  rw [deserializeBinary_eq] at accepted
  by_cases version : wordOf b 0 = serializationVersion
  · by_cases sum : wordOf b 10 = crc32 (b.val.take 40)
    · simp only [version, sum, ne_eq, not_true_eq_false, if_false, Except.ok.injEq] at accepted
      have front : versionAndState s = b.val.take 40 := by
        rw [← flatMap_wordOf b (show 10 ≤ 11 by decide), ← accepted, versionAndState, ← version]
        rfl
      have whole : b.val.take 40 ++ storeLe32 (wordOf b 10) = b.val := by
        have all := flatMap_wordOf b (Nat.le_refl 11)
        rw [List.range_succ, List.map_append, List.flatMap_append, flatMap_wordOf b (show 10 ≤ 11 by decide),
          List.take_of_length_le (show b.val.length ≤ 4 * 11 from Nat.le_of_eq b.property)] at all
        simpa using all
      apply Subtype.ext
      rw [← whole, sum]
      change versionAndState s ++ storeLe32 (crc32 (versionAndState s)) = _
      rw [front]
    · simp [version, sum] at accepted
  · simp [version] at accepted

/-- The binary form of a state decodes to it. -/
theorem deserializeBinary_serializeBinary (s : State) : deserializeBinary (serializeBinary s) = .ok s := by
  have version : wordOf (serializeBinary s) 0 = serializationVersion := wordOf_serializeBinary s rfl
  have sum : wordOf (serializeBinary s) 10 = crc32 ((serializeBinary s).val.take 40) := wordOf_serializeBinary s rfl
  have x : wordOf (serializeBinary s) 1 = s.x := wordOf_serializeBinary s rfl
  have y : wordOf (serializeBinary s) 2 = s.y := wordOf_serializeBinary s rfl
  have z : wordOf (serializeBinary s) 3 = s.z := wordOf_serializeBinary s rfl
  have w : wordOf (serializeBinary s) 4 = s.w := wordOf_serializeBinary s rfl
  have alpha : wordOf (serializeBinary s) 5 = s.alpha := wordOf_serializeBinary s rfl
  have gamma : wordOf (serializeBinary s) 6 = s.gamma := wordOf_serializeBinary s rfl
  have mu : wordOf (serializeBinary s) 7 = s.mu := wordOf_serializeBinary s rfl
  have sigma : wordOf (serializeBinary s) 8 = s.sigma := wordOf_serializeBinary s rfl
  have counter : wordOf (serializeBinary s) 9 = s.counter := wordOf_serializeBinary s rfl
  have state : stateIn (serializeBinary s) = s := by
    rw [stateIn, x, y, z, w, alpha, gamma, mu, sigma, counter]
  rw [deserializeBinary_eq, if_neg (not_not_intro version), if_neg (not_not_intro sum), state]

/-- The only fault of the decoder is its own exception. -/
theorem deserializeBinary_error {b : Blob} {e : Fault} (refused : deserializeBinary b = .error e) :
    ∃ what, e = .serializationError what := by
  rw [deserializeBinary_eq] at refused
  split at refused
  · cases refused
    exact ⟨_, rfl⟩
  · split at refused
    · cases refused
      exact ⟨_, rfl⟩
    · cases refused

/-- A blob is refused, or it is the binary form of the state it decodes to. -/
theorem deserializeBinary_cases (b : Blob) : (∃ what, deserializeBinary b = .error (.serializationError what)) ∨
    ∃ s, deserializeBinary b = .ok s ∧ serializeBinary s = b := by
  rcases decoded : deserializeBinary b with e | s
  · obtain ⟨what, rfl⟩ := deserializeBinary_error decoded
    exact Or.inl ⟨what, rfl⟩
  · exact Or.inr ⟨s, rfl, serializeBinary_of_ok decoded⟩

theorem serializeBinary_injective : Function.Injective serializeBinary := by
  intro s s' same
  have decoded := deserializeBinary_serializeBinary s
  rw [same, deserializeBinary_serializeBinary] at decoded
  exact (Except.ok.inj decoded).symm
theorem accepted_iff (b : Blob) (s : State) : deserializeBinary b = .ok s ↔ serializeBinary s = b := by
  constructor
  · exact serializeBinary_of_ok
  · rintro rfl
    exact deserializeBinary_serializeBinary s

/-- The codec is a bijection between all states and the accepted blobs, and the decoder reads
    nothing outside a blob. -/
theorem binary_codec :
    (∀ s, deserializeBinary (serializeBinary s) = .ok s) ∧
      (∀ b, (∃ what, deserializeBinary b = .error (.serializationError what)) ∨
        ∃ s, deserializeBinary b = .ok s ∧ serializeBinary s = b) ∧
      (∀ b, (∃ s, deserializeBinary b = .ok s) ↔ ∃! s, serializeBinary s = b) ∧
      (∀ b b' s, deserializeBinary b = .ok s → deserializeBinary b' = .ok s → b = b') ∧
      ∀ b, deserializeBinary b ≠ .error .outOfBounds := by
  refine ⟨deserializeBinary_serializeBinary, deserializeBinary_cases, ?_, ?_, ?_⟩
  · intro b
    constructor
    · rintro ⟨s, accepted⟩
      have written := (accepted_iff b s).mp accepted
      exact ⟨s, written, fun s' other => serializeBinary_injective (other.trans written.symm)⟩
    · rintro ⟨s, written, _⟩
      exact ⟨s, (accepted_iff b s).mpr written⟩
  · intro b b' s first second
    exact (serializeBinary_of_ok first).symm.trans (serializeBinary_of_ok second)
  · intro b outside
    obtain ⟨what, impossible⟩ := deserializeBinary_error outside
    cases impossible

end Eahcm.Binary
