import Mathlib.Tactic.Tauto
import Eahcm.LittleEndian

/-!
The types and constants of the library: machine words, the faults a call can end in, access to
arrays, the nine-word state, and the byte order of stored words (`types.hpp`, `constants.hpp`,
`bit_ops.hpp`, `exceptions.hpp`).
-/
namespace Eahcm.Types
open Eahcm.LittleEndian

abbrev Byte := BitVec 8
abbrev Word32 := BitVec 32
abbrev Word64 := BitVec 64
abbrev Bytes := List Byte
/-- The characters of a `std::string`. -/
abbrev Text := List Char

def phiFrac : Word32 := 0x9E3779B9
def epsilonConst : Word32 := 0x243F6A88
def paramFloor : Word32 := 0xE0000000
def driftMask : Word32 := 0x1FF00000
def paramCeiling : Word32 := paramFloor + driftMask
def driftInterval : Word32 := 64
def warmupSteps : Nat := 256
def postHashSteps : Nat := 64
def sentinelZero : Word32 := 0xDEADBEEF
def sentinelOnes : Word32 := 0x13371337
def rotYInX : Nat := 11
def rotXInY : Nat := 17
def rotWInZ : Nat := 23
def rotZInW : Nat := 31
def rotCtrEps : Nat := 5
def rotDriftAlpha : Nat := 3
def rotDriftGamma : Nat := 11
def rotDriftMu : Nat := 19
def rotDriftSigma : Nat := 27
def rotExtract : Nat := 16

/-- 32-bit left rotation, for `n` from 1 to 31. -/
def rol32 (x : Word32) (n : Nat) : Word32 := (x <<< n) ||| (x >>> (32 - n))

/-- How a call ends other than by returning: an exception with its message (a `std::length_error` has the
    standard library's own), or an access outside an array, which the language leaves undefined. -/
inductive Fault
  | keyError (what : String)
  | serializationError (what : String)
  | runtimeError (what : String)
  | invalidArgument (what : String)
  | lengthError
  | outOfBounds
deriving DecidableEq, Repr

/-- `src[i]`. -/
def readAt (src : Bytes) (i : Nat) : Except Fault Byte :=
  match src[i]? with
  | some b => .ok b
  | none => .error .outOfBounds
/-- `dst[i] = b`. -/
def writeAt (dst : Bytes) (i : Nat) (b : Byte) : Except Fault Bytes :=
  if i < dst.length then .ok (dst.set i b) else .error .outOfBounds
/-- The `len` bytes that start at a pointer. -/
def readRange (src : Bytes) (len : Nat) : Except Fault Bytes :=
  if len ≤ src.length then .ok (src.take len) else .error .outOfBounds

theorem readAt_inside {src : Bytes} {i : Nat} (inside : i < src.length) : readAt src i = .ok src[i] := by
  simp [readAt, List.getElem?_eq_getElem inside]
theorem writeAt_inside {dst : Bytes} {i : Nat} (b : Byte) (inside : i < dst.length) :
    writeAt dst i b = .ok (dst.set i b) := by
  simp [writeAt, inside]
theorem readRange_inside {src : Bytes} {len : Nat} (inside : len ≤ src.length) :
    readRange src len = .ok (src.take len) := by
  simp [readRange, inside]

/-- The four state words, the four chaotic parameters and the step counter. -/
structure State where
  x : Word32 := 0
  y : Word32 := 0
  z : Word32 := 0
  w : Word32 := 0
  alpha : Word32 := 0
  gamma : Word32 := 0
  mu : Word32 := 0
  sigma : Word32 := 0
  counter : Word32 := 0
deriving DecidableEq, Repr

/-- Every word of the state overwritten with zero. -/
def State.secureWipe (_ : State) : State := ⟨0, 0, 0, 0, 0, 0, 0, 0, 0⟩

/-- The little-endian word stored at an offset. -/
def loadLe32 (src : Bytes) (off : Nat) : Except Fault Word32 := do
  let b0 ← readAt src off
  let b1 ← readAt src (off + 1)
  let b2 ← readAt src (off + 2)
  let b3 ← readAt src (off + 3)
  return b0.setWidth 32 ||| (b1.setWidth 32 <<< 8) ||| (b2.setWidth 32 <<< 16) ||| (b3.setWidth 32 <<< 24)
/-- The four bytes that store a word. -/
def storeLe32 (val : Word32) : Bytes :=
  [val.setWidth 8, (val >>> 8).setWidth 8, (val >>> 16).setWidth 8, (val >>> 24).setWidth 8]
/-- Whether two buffers of one length hold the same bytes, looking at all of them. -/
def secureCompare (a b : Bytes) : Bool :=
  (List.zip a b).foldl (fun diff (p : Byte × Byte) => diff ||| (p.1 ^^^ p.2)) 0#8 == 0#8

@[simp] theorem length_storeLe32 (val : Word32) : (storeLe32 val).length = 4 := rfl

theorem storeLe32_eq (val : Word32) : storeLe32 val = toBytes 4 val := by
  simp [storeLe32, toBytes, byteAt, List.range_succ]

theorem ofBytes_four (b0 b1 b2 b3 : Byte) :
    ofBytes 32 [b0, b1, b2, b3] =
      b0.setWidth 32 ||| (b1.setWidth 32 <<< 8) ||| (b2.setWidth 32 <<< 16) ||| (b3.setWidth 32 <<< 24) := by
  simp [ofBytes, BitVec.or_assoc, BitVec.shiftLeft_or_distrib, ← BitVec.shiftLeft_add]

/-- A word loaded from inside an array is the one its four bytes spell. -/
theorem loadLe32_inside {src : Bytes} {off : Nat} (inside : off + 4 ≤ src.length) :
    loadLe32 src off = .ok (ofBytes 32 ((src.drop off).take 4)) := by
  have four : (src.drop off).take 4 = [src[off], src[off + 1], src[off + 2], src[off + 3]] := by
    rw [List.drop_eq_getElem_cons (show off < src.length by omega),
      List.drop_eq_getElem_cons (show off + 1 < src.length by omega),
      List.drop_eq_getElem_cons (show off + 1 + 1 < src.length by omega),
      List.drop_eq_getElem_cons (show off + 1 + 1 + 1 < src.length by omega)]
    rfl
  rw [four, ofBytes_four]
  simp only [loadLe32, readAt_inside (show off < src.length by omega), readAt_inside (show off + 1 < src.length by omega),
    readAt_inside (show off + 2 < src.length by omega), readAt_inside (show off + 3 < src.length by omega)]
  rfl

/-- A stored word is loaded back from where it was stored. -/
theorem loadLe32_storeLe32 (before after : Bytes) (val : Word32) :
    loadLe32 (before ++ (storeLe32 val ++ after)) before.length = .ok val := by
  rw [loadLe32_inside (by simp)]
  simp [storeLe32_eq, ofBytes_toBytes]

/-- The comparison is equality of the buffers. -/
theorem secureCompare_iff {a b : Bytes} (same : a.length = b.length) : secureCompare a b = true ↔ a = b := by
  have fold : ∀ (a b : Bytes) (diff : Byte), a.length = b.length →
      ((List.zip a b).foldl (fun diff (p : Byte × Byte) => diff ||| (p.1 ^^^ p.2)) diff = 0#8 ↔ diff = 0#8 ∧ a = b) := by
    intro a
    induction a with
    | nil =>
      intro b diff same
      have : b = [] := List.length_eq_zero_iff.mp same.symm
      simp [this]
    | cons x a ih =>
      intro b diff same
      cases b with
      | nil => simp at same
      | cons y b =>
        have tail := ih b (diff ||| (x ^^^ y)) (by simpa using same)
        simp only [List.zip_cons_cons, List.foldl_cons, List.cons.injEq]
        rw [tail, BitVec.or_eq_zero_iff, BitVec.xor_eq_zero_iff]
        tauto
  simpa [secureCompare] using fold a b 0#8 same

end Eahcm.Types
