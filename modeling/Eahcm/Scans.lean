import Mathlib.Data.List.Range
import Eahcm.Json

/-!
The JSON decoder with its positions. The source keeps an index into the text, reads single
characters at it and hands the rest to `std::from_chars`; here every such access is checked
against the end of the text. The scan never leaves the text, and reads what the decoder on the
remaining text does (`parseJsonUint32At_eq`).
-/
namespace Eahcm.Scans
open Eahcm.Types Eahcm.Binary Eahcm.Texts Eahcm.JsonGrammar Eahcm.Json

/-- `text.find(pattern, pos)`, with none for npos. -/
def findFrom (text pattern : Text) (pos : Nat) : Option Nat :=
  (List.range' pos (text.length + 1 - pos)).find? fun p => decide (pattern <+: text.drop p)
/-- `text[pos]`. -/
def charAt (text : Text) (pos : Nat) : Except Fault Char :=
  match text[pos]? with
  | some c => .ok c
  | none => .error .outOfBounds
/-- `std::from_chars(text.data() + pos, text.data() + text.size(), value)`. -/
def fromCharsAt (text : Text) (pos : Nat) : Except Fault (Option Word32) :=
  if pos ≤ text.length then .ok (fromChars (text.drop pos)) else .error .outOfBounds

/-- The loop over whitespace. -/
def skipSpace (json : Text) (pos : Nat) : Except Fault Nat := do
  if pos < json.length then
    let c ← charAt json pos
    if isSpace c then skipSpace json (pos + 1) else return pos
  else return pos
termination_by json.length - pos

def parseJsonUint32At (json : Text) (key : String) : Except Fault Word32 :=
  match findFrom json (quoted key.toList) 0 with
  | none => .error (jsonMissingField key)
  | some pos =>
    match findFrom json [':'] pos with
    | none => .error jsonParseError
    | some pos => do
      match ← fromCharsAt json (← skipSpace json (pos + 1)) with
      | none => throw (jsonFieldError key)
      | some value => return value

theorem charAt_inside {text : Text} {pos : Nat} (inside : pos < text.length) : charAt text pos = .ok text[pos] := by
  rw [charAt, List.getElem?_eq_getElem inside]

theorem findFrom_end (text pattern : Text) :
    findFrom text pattern text.length = if pattern = [] then some text.length else none := by
  have one : text.length + 1 - text.length = 1 := by omega
  rw [findFrom, one, List.range'_one]
  by_cases empty : pattern = []
  · simp [empty]
  · simp [empty]
theorem findFrom_step (text pattern : Text) {pos : Nat} (inside : pos < text.length) :
    findFrom text pattern pos =
      if pattern <+: text.drop pos then some pos else findFrom text pattern (pos + 1) := by
  have more : text.length + 1 - pos = text.length + 1 - (pos + 1) + 1 := by omega
  rw [findFrom, more, List.range'_succ, List.find?_cons]
  by_cases here : pattern <+: text.drop pos
  · simp [here]
  · simp [here, findFrom]

/-- A search from a position finds what a search of the remaining text does. -/
theorem findFrom_eq (text pattern : Text) {pos : Nat} (inside : pos ≤ text.length) :
    (findFrom text pattern pos).map text.drop = find pattern (text.drop pos) := by
  obtain ⟨left, rfl⟩ : ∃ left, pos = text.length - left := ⟨text.length - pos, by omega⟩
  -- by the number of characters from the position on
  induction left with
  | zero =>
    rw [Nat.sub_zero, findFrom_end, List.drop_length, find]
    by_cases empty : pattern = []
    · simp [empty]
    · simp [empty]
  | succ left ih =>
    by_cases room : left < text.length
    · have here : text.length - (left + 1) < text.length := by omega
      have next : text.length - (left + 1) + 1 = text.length - left := by omega
      rw [findFrom_step text pattern here, List.drop_eq_getElem_cons here, find, next]
      by_cases occurs : pattern <+: text[text.length - (left + 1)] :: text.drop (text.length - left)
      · rw [if_pos occurs, if_pos occurs]
        simp [List.drop_eq_getElem_cons here, next]
      · rw [if_neg occurs, if_neg occurs]
        exact ih (by omega)
    · have same : text.length - (left + 1) = text.length - left := by omega
      rw [same]
      exact ih (by omega)
theorem findFrom_inside {text pattern : Text} {pos p : Nat} (found : findFrom text pattern pos = some p) :
    p ≤ text.length := by
  have member := List.mem_range'_1.mp (List.mem_of_find?_eq_some found)
  omega

/-- The loop stops inside the text, where the whitespace does. -/
theorem skipSpace_spec (json : Text) {pos : Nat} (inside : pos ≤ json.length) :
    ∃ p ≤ json.length, skipSpace json pos = .ok p ∧ json.drop p = (json.drop pos).dropWhile isSpace := by
  fun_induction skipSpace json pos with
  | case1 pos more ih =>
    rw [charAt_inside more, List.drop_eq_getElem_cons more]
    by_cases white : isSpace json[pos] = true
    · obtain ⟨p, within, ran, rest⟩ := ih more
      refine ⟨p, within, ?_, ?_⟩
      · simp only [bind, Except.bind, white, if_true, ran]
      · rw [rest, List.dropWhile_cons_of_pos white]
    · refine ⟨pos, inside, ?_, ?_⟩
      · simp only [bind, Except.bind, white]
        rfl
      · rw [List.dropWhile_cons_of_neg white, List.drop_eq_getElem_cons more]
  | case2 pos done =>
    have none : json.drop pos = [] := List.drop_eq_nil_of_le (by omega)
    exact ⟨pos, inside, rfl, by rw [none]; rfl⟩

/-- The scan reads a field as the decoder does, and stays inside the text. -/
theorem parseJsonUint32At_eq (json : Text) (key : String) : parseJsonUint32At json key = parseJsonUint32 json key := by
  have named := findFrom_eq json (quoted key.toList) (Nat.zero_le json.length)
  rw [List.drop_zero] at named
  rw [parseJsonUint32At, parseJsonUint32, ← named]
  cases fromKey : findFrom json (quoted key.toList) 0 with
  | none => rfl
  | some pos =>
    have colon := findFrom_eq json [':'] (findFrom_inside fromKey)
    simp only [Option.map_some, ← colon]
    cases fromColon : findFrom json [':'] pos with
    | none => rfl
    | some p =>
      rw [fromColon, Option.map_some] at colon
      have inside : p < json.length := by
        by_contra past
        have occurs := (find_eq_some_iff.mp colon.symm).occurs
        rw [List.drop_eq_nil_of_le (by omega)] at occurs
        simp at occurs
      obtain ⟨q, within, ran, rest⟩ := skipSpace_spec json (show p + 1 ≤ json.length from inside)
      have read : fromCharsAt json q = .ok (fromChars ((json.drop (p + 1)).dropWhile isSpace)) := by
        rw [fromCharsAt, if_pos within, rest]
      simp only [ran, read, Option.map_some, List.drop_drop, bind, Except.bind]
      cases fromChars ((json.drop (p + 1)).dropWhile isSpace) with
      | none => rfl
      | some value => rfl

/-- The decoder over a reader of the fields. -/
def decodeFields (parse : String → Except Fault Word32) : Except Fault State := do
  let ver ← parse "version"
  if ver ≠ serializationVersion then throw jsonVersionMismatch
  let x ← parse "x"
  let y ← parse "y"
  let z ← parse "z"
  let w ← parse "w"
  let alpha ← parse "alpha"
  let gamma ← parse "gamma"
  let mu ← parse "mu"
  let sigma ← parse "sigma"
  let counter ← parse "counter"
  let s : State := { x, y, z, w, alpha, gamma, mu, sigma, counter }
  let storedChecksum ← parse "checksum"
  let computed := crc32 ((serializeBinary s).val.take 40)
  if storedChecksum ≠ computed then throw jsonChecksumMismatch
  return s
/-- `deserialize_json` with all its accesses to the text. -/
def deserializeJsonAt (json : Text) : Except Fault State := decodeFields (parseJsonUint32At json)

theorem deserializeJsonAt_eq (json : Text) : deserializeJsonAt json = deserializeJson json := by
  rw [deserializeJsonAt, funext (parseJsonUint32At_eq json)]
  rfl

/-- On any text the scan stays inside the text, gives what the decoder on remaining texts gives, and
    fails with nothing but its own exception. -/
theorem scan_inside (json : Text) :
    deserializeJsonAt json = deserializeJson json ∧ deserializeJsonAt json ≠ .error .outOfBounds ∧
      ∀ e, deserializeJsonAt json = .error e → ∃ what, e = .serializationError what := by
  have declared : ∀ e, deserializeJsonAt json = .error e → ∃ what, e = .serializationError what := by
    intro e failed
    rw [deserializeJsonAt_eq] at failed
    exact deserializeJson_declared json e failed
  refine ⟨deserializeJsonAt_eq json, fun outside => ?_, declared⟩
  obtain ⟨what, impossible⟩ := declared _ outside
  cases impossible

end Eahcm.Scans
