import Mathlib.Data.List.Nodup
import Mathlib.Data.List.TakeWhile
import Eahcm.Binary
import Eahcm.JsonGrammar

/-!
The JSON form of a state (`serialization.cpp`). The decoder is no parser: for each of eleven
names it searches the first occurrence of the quoted name, then the next colon, skips
whitespace and reads a run of digits. That reads back every object made of the eleven members
(`json_complete`) and accepts a good deal else (`not_json_sound`); what it accepts exactly is
`json_exact`.
-/
namespace Eahcm.Json
open Eahcm.Types Eahcm.Binary Eahcm.Texts Eahcm.JsonGrammar

/-- The digit grouping of a locale: the sizes of the groups from the right, the last of which
    repeats, and what separates them. -/
structure NumPunct where
  grouping : List Int
  thousandsSep : Char
def charMax : Int := 127
/-- The classic locale has no groups. -/
def classic : NumPunct := ⟨[], ','⟩

/-- Digits from the right, with separators; `printed` of them stand in the group so far. A size
    that is not positive, or the largest, ends the grouping. -/
def groupDigits (sep : Char) : List Int → Nat → Text → Text
  | _, _, [] => []
  | [], _, digits => digits
  | size :: more, printed, d :: rest =>
    if size ≤ 0 ∨ size = charMax then d :: rest
    else if (printed : Int) < size then d :: groupDigits sep (size :: more) (printed + 1) rest
    else sep :: d :: groupDigits sep (if more.isEmpty then [size] else more) 1 rest
/-- `os << value` under a locale. -/
def insertUnsigned (np : NumPunct) (value : Word32) : Text :=
  (groupDigits np.thousandsSep np.grouping 0 (decimal value.toNat).reverse).reverse

def jsonField (np : NumPunct) (sp : Text) (name : String) (value : Word32) : Text :=
  sp ++ quoted name.toList ++ ": ".toList ++ insertUnsigned np value
/-- The text written when the given locale is the global one. -/
def serializeJson (np : NumPunct) (s : State) (pretty : Bool) : Text :=
  let checksum := crc32 ((serializeBinary s).val.take 40)
  let nl : Text := if pretty then ['\n'] else []
  let sp : Text := if pretty then [' ', ' '] else []
  '{' :: nl ++
    jsonField np sp "version" serializationVersion ++ ',' :: nl ++
    jsonField np sp "x" s.x ++ ',' :: nl ++
    jsonField np sp "y" s.y ++ ',' :: nl ++
    jsonField np sp "z" s.z ++ ',' :: nl ++
    jsonField np sp "w" s.w ++ ',' :: nl ++
    jsonField np sp "alpha" s.alpha ++ ',' :: nl ++
    jsonField np sp "gamma" s.gamma ++ ',' :: nl ++
    jsonField np sp "mu" s.mu ++ ',' :: nl ++
    jsonField np sp "sigma" s.sigma ++ ',' :: nl ++
    jsonField np sp "counter" s.counter ++ ',' :: nl ++
    jsonField np sp "checksum" checksum ++ nl ++ ['}']

/-! ## Reading -/

/-- `std::from_chars` of a 32-bit unsigned integer, with none for an error code: no digit to
    read, or a number out of range. -/
def fromChars (text : Text) : Option Word32 :=
  let digits := text.takeWhile Char.isDigit
  if digits.isEmpty then none
  else if decimalValue digits < 2 ^ 32 then some (BitVec.ofNat 32 (decimalValue digits))
  else none

def jsonMissingField (key : String) : Fault := .serializationError ("JSON missing field: " ++ key)
def jsonParseError : Fault := .serializationError "JSON parse error"
def jsonFieldError (key : String) : Fault := .serializationError ("JSON parse error for field: " ++ key)
def jsonVersionMismatch : Fault := .serializationError "JSON version mismatch"
def jsonChecksumMismatch : Fault := .serializationError "JSON checksum mismatch"

/-- A position in the text is the text from there on. -/
def parseJsonUint32 (json : Text) (key : String) : Except Fault Word32 :=
  match find (quoted key.toList) json with
  | none => .error (jsonMissingField key)
  | some fromKey =>
    match find [':'] fromKey with
    | none => .error jsonParseError
    | some fromColon =>
      match fromChars ((fromColon.drop 1).dropWhile isSpace) with
      | none => .error (jsonFieldError key)
      | some value => .ok value

def deserializeJson (json : Text) : Except Fault State := do
  let ver ← parseJsonUint32 json "version"
  if ver ≠ serializationVersion then throw jsonVersionMismatch
  let x ← parseJsonUint32 json "x"
  let y ← parseJsonUint32 json "y"
  let z ← parseJsonUint32 json "z"
  let w ← parseJsonUint32 json "w"
  let alpha ← parseJsonUint32 json "alpha"
  let gamma ← parseJsonUint32 json "gamma"
  let mu ← parseJsonUint32 json "mu"
  let sigma ← parseJsonUint32 json "sigma"
  let counter ← parseJsonUint32 json "counter"
  let s : State := { x, y, z, w, alpha, gamma, mu, sigma, counter }
  let storedChecksum ← parseJsonUint32 json "checksum"
  let computed := crc32 ((serializeBinary s).val.take 40)
  if storedChecksum ≠ computed then throw jsonChecksumMismatch
  return s

/-- The fields of the JSON form with their values. -/
def jsonFields (s : State) : List (String × Word32) :=
  [("version", serializationVersion), ("x", s.x), ("y", s.y), ("z", s.z), ("w", s.w), ("alpha", s.alpha),
    ("gamma", s.gamma), ("mu", s.mu), ("sigma", s.sigma), ("counter", s.counter),
    ("checksum", crc32 ((serializeBinary s).val.take 40))]

theorem bind_ok_iff {α β : Type} {access : Except Fault α} {next : α → Except Fault β} {b : β} :
    access >>= next = .ok b ↔ ∃ a, access = .ok a ∧ next a = .ok b := by
  cases access with
  | error e => simp [bind, Except.bind]
  | ok a => simp [bind, Except.bind]

/-- The decoder returns a state when each field reads as the state has it. -/
theorem deserializeJson_ok_iff (json : Text) (s : State) :
    deserializeJson json = .ok s ↔ ∀ field ∈ jsonFields s, parseJsonUint32 json field.1 = .ok field.2 := by
  have spelled : (∀ field ∈ jsonFields s, parseJsonUint32 json field.1 = .ok field.2) ↔
      parseJsonUint32 json "version" = .ok serializationVersion ∧ parseJsonUint32 json "x" = .ok s.x ∧
      parseJsonUint32 json "y" = .ok s.y ∧ parseJsonUint32 json "z" = .ok s.z ∧ parseJsonUint32 json "w" = .ok s.w ∧
      parseJsonUint32 json "alpha" = .ok s.alpha ∧ parseJsonUint32 json "gamma" = .ok s.gamma ∧
      parseJsonUint32 json "mu" = .ok s.mu ∧ parseJsonUint32 json "sigma" = .ok s.sigma ∧
      parseJsonUint32 json "counter" = .ok s.counter ∧
      parseJsonUint32 json "checksum" = .ok (crc32 ((serializeBinary s).val.take 40)) := by
    simp [jsonFields]
  rw [spelled]
  constructor
  · intro accepted
    obtain ⟨ver, version, accepted⟩ := bind_ok_iff.mp accepted
    by_cases right : ver = serializationVersion
    · simp only [right, ne_eq, not_true_eq_false, if_false] at accepted
      obtain ⟨x, readX, accepted⟩ := bind_ok_iff.mp accepted
      obtain ⟨y, readY, accepted⟩ := bind_ok_iff.mp accepted
      obtain ⟨z, readZ, accepted⟩ := bind_ok_iff.mp accepted
      obtain ⟨w, readW, accepted⟩ := bind_ok_iff.mp accepted
      obtain ⟨alpha, readAlpha, accepted⟩ := bind_ok_iff.mp accepted
      obtain ⟨gamma, readGamma, accepted⟩ := bind_ok_iff.mp accepted
      obtain ⟨mu, readMu, accepted⟩ := bind_ok_iff.mp accepted
      obtain ⟨sigma, readSigma, accepted⟩ := bind_ok_iff.mp accepted
      obtain ⟨counter, readCounter, accepted⟩ := bind_ok_iff.mp accepted
      obtain ⟨stored, readStored, accepted⟩ := bind_ok_iff.mp accepted
      split at accepted
      · cases accepted
      · next same =>
        cases accepted
        rw [Decidable.not_not.mp same] at readStored
        exact ⟨right ▸ version, readX, readY, readZ, readW, readAlpha, readGamma, readMu, readSigma, readCounter,
          readStored⟩
    · simp only [right, ne_eq, not_false_eq_true, if_true] at accepted
      cases accepted
  · rintro ⟨version, x, y, z, w, alpha, gamma, mu, sigma, counter, stored⟩
    simp only [deserializeJson, version, x, y, z, w, alpha, gamma, mu, sigma, counter, stored, bind, Except.bind,
      ne_eq, not_true_eq_false, if_false]
    rfl

/-- The decoder's reading of a name: the first occurrence of the quoted name, the first colon
    from there on, whitespace, and the longest run of digits, which spells the value. -/
def Reads (js name : Text) (value : Nat) : Prop :=
  ∃ fromName gap digits after, FirstAt (quoted name) js fromName ∧
    FirstAt [':'] fromName (':' :: (gap ++ (digits ++ after))) ∧ Gap gap ∧ Digits digits ∧
      (∀ c ∈ after.head?, c.isDigit = false) ∧ decimalValue digits = value

theorem isDigit_not_isSpace {c : Char} (digit : c.isDigit = true) : isSpace c = false := by
  cases white : isSpace c with
  | false => rfl
  | true =>
    simp only [isSpace, Bool.or_eq_true, beq_iff_eq] at white
    rcases white with ((rfl | rfl) | rfl) | rfl <;> exact absurd digit (by decide)

theorem not_isDigit_of_ended {c : Char} (ended : isSpace c = true ∨ c = ',' ∨ c = '}') : c.isDigit = false := by
  cases digit : c.isDigit with
  | false => rfl
  | true =>
    rcases ended with space | rfl | rfl
    · rw [isDigit_not_isSpace digit] at space
      cases space
    · cases digit
    · cases digit

theorem not_isSpace_of_digits {digits : Text} (run : Digits digits) (after : Text) :
    ∀ c ∈ (digits ++ after).head?, isSpace c = false := by
  intro c first
  cases digits with
  | nil => exact absurd rfl run.1
  | cons d digits =>
    have same : d = c := by simpa using first
    exact isDigit_not_isSpace (run.2 c (by simp [same]))

theorem fromChars_run {digits after : Text} (run : Digits digits) (ended : ∀ c ∈ after.head?, c.isDigit = false) :
    fromChars (digits ++ after) =
      if decimalValue digits < 2 ^ 32 then some (BitVec.ofNat 32 (decimalValue digits)) else none := by
  have present : digits.isEmpty = false := by simpa using run.1
  simp only [fromChars, takeWhile_run run.2 ended, present, Bool.false_eq_true, if_false]

theorem fromChars_some_iff {text : Text} {value : Word32} :
    fromChars text = some value ↔ ∃ digits after, text = digits ++ after ∧ Digits digits ∧
      (∀ c ∈ after.head?, c.isDigit = false) ∧ decimalValue digits = value.toNat := by
  constructor
  · intro read
    have run : ∀ c ∈ text.takeWhile Char.isDigit, c.isDigit = true := fun c member => List.mem_takeWhile_imp member
    have ended : ∀ c ∈ (text.dropWhile Char.isDigit).head?, c.isDigit = false := by
      intro c first
      have stopped := List.head?_dropWhile_not Char.isDigit text
      rw [Option.mem_def.mp first] at stopped
      exact stopped
    by_cases present : text.takeWhile Char.isDigit = []
    · simp [fromChars, present] at read
    · refine ⟨_, _, List.takeWhile_append_dropWhile.symm, ⟨present, run⟩, ended, ?_⟩
      conv at read => lhs; rw [← List.takeWhile_append_dropWhile (p := Char.isDigit) (l := text)]
      rw [fromChars_run ⟨present, run⟩ ended] at read
      split at read
      · next small =>
        cases read
        rw [BitVec.toNat_ofNat, Nat.mod_eq_of_lt small]
      · cases read
  · rintro ⟨digits, after, rfl, run, ended, spelled⟩
    rw [fromChars_run run ended, spelled, if_pos value.isLt, BitVec.ofNat_toNat, BitVec.setWidth_eq]

/-- A field is read as a value when the decoder's reading of its name spells that value. -/
theorem parseJsonUint32_ok_iff (json : Text) (key : String) (value : Word32) :
    parseJsonUint32 json key = .ok value ↔ Reads json key.toList value.toNat := by
  constructor
  · intro read
    rw [parseJsonUint32] at read
    cases named : find (quoted key.toList) json with
    | none => simp [named] at read
    | some fromKey =>
      cases colon : find [':'] fromKey with
      | none => simp [named, colon] at read
      | some fromColon =>
        simp only [named, colon] at read
        split at read
        · cases read
        · next number given =>
          cases read
          have first := find_eq_some_iff.mp colon
          obtain ⟨rest, rfl⟩ := first.occurs
          obtain ⟨digits, after, shape, run, ended, spelled⟩ := fromChars_some_iff.mp given
          refine ⟨fromKey, rest.takeWhile isSpace, digits, after, find_eq_some_iff.mp named, ?_,
            fun c member => List.mem_takeWhile_imp member, run, ended, spelled⟩
          rw [← shape]
          simpa using first
  · rintro ⟨fromKey, gap, digits, after, named, colon, white, run, ended, spelled⟩
    have given : fromChars (digits ++ after) = some value :=
      fromChars_some_iff.mpr ⟨digits, after, rfl, run, ended, spelled⟩
    simp only [parseJsonUint32, find_eq_some_iff.mpr named, find_eq_some_iff.mpr colon, List.drop_succ_cons,
      List.drop_zero, dropWhile_run white (not_isSpace_of_digits run after), given]

/-- A call that throws nothing but `SerializationError`. -/
def Declared {α : Type} (result : Except Fault α) : Prop :=
  ∀ e, result = .error e → ∃ what, e = .serializationError what

theorem Declared.ok {α : Type} (a : α) : Declared (.ok a) := by
  intro e refused
  cases refused
theorem Declared.error {α : Type} (what : String) : Declared (.error (.serializationError what) : Except Fault α) := by
  rintro e ⟨⟩
  exact ⟨what, rfl⟩
theorem Declared.bind {α β : Type} {access : Except Fault α} {next : α → Except Fault β} (declared : Declared access)
    (rest : ∀ a, Declared (next a)) : Declared (access >>= next) := by
  intro e refused
  cases access with
  | error fault =>
    cases refused
    exact declared e rfl
  | ok a => exact rest a e refused

theorem parseJsonUint32_declared (json : Text) (key : String) : Declared (parseJsonUint32 json key) := by
  rw [parseJsonUint32]
  split
  · exact .error _
  · split
    · exact .error _
    · split
      · exact .error _
      · exact .ok _

theorem deserializeJson_declared (json : Text) : Declared (deserializeJson json) := by
  have read (key : String) := parseJsonUint32_declared json key
  refine (read "version").bind fun ver => ?_
  split
  · exact .error _
  · refine (read "x").bind fun x => (read "y").bind fun y => (read "z").bind fun z => (read "w").bind fun w => ?_
    refine (read "alpha").bind fun alpha => (read "gamma").bind fun gamma => (read "mu").bind fun mu => ?_
    refine (read "sigma").bind fun sigma => (read "counter").bind fun counter => (read "checksum").bind fun stored => ?_
    dsimp only
    split
    · exact .error _
    · exact .ok _

def fieldNames : List String :=
  ["version", "x", "y", "z", "w", "alpha", "gamma", "mu", "sigma", "counter", "checksum"]

theorem names_jsonFields (s : State) : (jsonFields s).map Prod.fst = fieldNames := rfl
theorem mem_fieldNames {s : State} {field : String × Word32} (listed : field ∈ jsonFields s) : field.1 ∈ fieldNames := by
  rw [← names_jsonFields s]
  exact List.mem_map_of_mem listed
theorem fieldNames_searchable {key : String} (listed : key ∈ fieldNames) :
    Searchable key.toList ∧ ∀ c ∈ key.toList, c ≠ ':' := by
  have names : fieldNames.all (fun key => key.toList.all (fun c => c != '"' && c != ':') &&
      key.toList.head?.any fun c => !isSpace c && c != ':') = true := by decide +kernel
  have ofKey := List.all_eq_true.mp names key listed
  simp only [Bool.and_eq_true, List.all_eq_true, Option.any_eq_true, Bool.not_eq_true', bne_iff_ne] at ofKey
  obtain ⟨inside, c, head, token⟩ := ofKey
  obtain ⟨rest, shape⟩ := List.head?_eq_some_iff.mp head
  exact ⟨⟨fun c member => (inside c member).1, c, rest, shape, token.1, token.2⟩,
    fun c member => (inside c member).2⟩

/-- The text of an object that has each field once, with a run of digits for its value. -/
structure FlatDocument (js : Text) (members : List (Text × Text)) : Prop where
  object : ObjectText js members
  names : (members.map Prod.fst).Perm (fieldNames.map String.toList)
  values : ∀ item ∈ members, Digits item.2

theorem plain_digits {digits : Text} (run : Digits digits) : Plain digits := by
  rintro c member rfl
  exact absurd (run.2 _ member) (by decide)

theorem FlatDocument.searchable {js : Text} {members : List (Text × Text)} (doc : FlatDocument js members)
    {item : Text × Text} (listed : item ∈ members) : Searchable item.1 := by
  have named : item.1 ∈ fieldNames.map String.toList := doc.names.mem_iff.mp (List.mem_map_of_mem listed)
  obtain ⟨key, inside, same⟩ := List.mem_map.mp named
  rw [← same]
  exact (fieldNames_searchable inside).1
theorem FlatDocument.distinct {js : Text} {members : List (Text × Text)} (doc : FlatDocument js members) :
    (members.map Prod.fst).Nodup := by
  have names : (fieldNames.map String.toList).Nodup := by decide
  exact doc.names.nodup_iff.mpr names

/-- Where a name is found with a colon and digits behind it, the field reads as the number they
    spell. -/
theorem parse_found {js : Text} {key : String} (field : key ∈ fieldNames) {gap gap' digits after : Text}
    (found : find (quoted key.toList) js = some (quoted key.toList ++ (gap ++ ':' :: (gap' ++ (digits ++ after)))))
    (white : Gap gap) (white' : Gap gap') (run : Digits digits) (stops : ∀ c ∈ after.head?, c.isDigit = false) :
    parseJsonUint32 js key =
      if decimalValue digits < 2 ^ 32 then .ok (BitVec.ofNat 32 (decimalValue digits)) else .error (jsonFieldError key) := by
  have noColon : ∀ c ∈ quoted key.toList ++ gap, c ≠ ':' := by
    intro c member
    rcases List.mem_append.mp member with inName | inGap
    · simp only [quoted, List.mem_cons, List.mem_append, List.not_mem_nil, or_false] at inName
      rcases inName with rfl | inName | rfl
      · decide
      · exact (fieldNames_searchable field).2 c inName
      · decide
    · rintro rfl
      exact absurd (white _ inGap) (by decide)
  have colon : find [':'] (quoted key.toList ++ (gap ++ ':' :: (gap' ++ (digits ++ after)))) =
      some (':' :: (gap' ++ (digits ++ after))) := by
    rw [← List.append_assoc]
    exact find_singleton ':' _ _ noColon
  simp only [parseJsonUint32, found, colon, List.drop_succ_cons, List.drop_zero,
    dropWhile_run white' (not_isSpace_of_digits run after), fromChars_run run stops]
  by_cases small : decimalValue digits < 2 ^ 32
  · rw [if_pos small, if_pos small]
  · rw [if_neg small, if_neg small]

/-- A field of such an object reads as the number that its value spells. -/
theorem FlatDocument.parse {js : Text} {members : List (Text × Text)} (doc : FlatDocument js members) {key : String}
    (field : key ∈ fieldNames) {value : Text} (listed : (key.toList, value) ∈ members) :
    parseJsonUint32 js key =
      if decimalValue value < 2 ^ 32 then .ok (BitVec.ofNat 32 (decimalValue value)) else .error (jsonFieldError key) := by
  have plain : ∀ item ∈ members, Searchable item.1 ∧ Plain item.2 := fun item within =>
    ⟨doc.searchable within, plain_digits (doc.values item within)⟩
  obtain ⟨found, named, ⟨gap, gap', after, rfl, white, white', ended⟩⟩ :=
    find_in_object doc.object doc.distinct plain listed
  exact parse_found field named white white' (doc.values _ listed) fun c first => not_isDigit_of_ended (ended c first)

/-- On such objects the decoder is sound and complete. -/
theorem FlatDocument.accepted_iff {js : Text} {members : List (Text × Text)} (doc : FlatDocument js members) (s : State) :
    deserializeJson js = .ok s ↔
      ∀ field ∈ jsonFields s, ∃ value, (field.1.toList, value) ∈ members ∧ decimalValue value = field.2.toNat := by
  rw [deserializeJson_ok_iff]
  refine forall₂_congr fun field within => ?_
  have named := mem_fieldNames within
  have present : field.1.toList ∈ members.map Prod.fst := doc.names.mem_iff.mpr (List.mem_map_of_mem named)
  obtain ⟨⟨name, value⟩, listed, same⟩ := List.mem_map.mp present
  simp only at same
  subst same
  rw [doc.parse named listed]
  constructor
  · intro read
    split at read
    · next small =>
      refine ⟨value, listed, ?_⟩
      rw [← Except.ok.inj read, BitVec.toNat_ofNat, Nat.mod_eq_of_lt small]
    · cases read
  · rintro ⟨value', listed', spelled⟩
    have only : value' = value := by
      have pairs := List.inj_on_of_nodup_map doc.distinct listed' listed rfl
      exact congrArg Prod.snd pairs
    rw [← only, spelled, if_pos field.2.isLt, BitVec.ofNat_toNat, BitVec.setWidth_eq]

/-! ## The documents of a state -/

/-- The members of the JSON form of a state. -/
def documentMembers (s : State) : List (Text × Text) :=
  (jsonFields s).map fun field => (field.1.toList, decimal field.2.toNat)

/-- A locale that prints plain decimals. -/
def Ungrouped (np : NumPunct) : Prop := ∀ value, insertUnsigned np value = decimal value.toNat

theorem classic_ungrouped : Ungrouped classic := by
  intro value
  have whole (digits : Text) : groupDigits ',' [] 0 digits = digits := by cases digits <;> rfl
  rw [insertUnsigned, classic, whole, List.reverse_reverse]

theorem flatDocument_of_perm {s : State} {js : Text} {members : List (Text × Text)} (object : ObjectText js members)
    (same : members.Perm (documentMembers s)) : FlatDocument js members where
  object := object
  names := by
    have names : (documentMembers s).map Prod.fst = fieldNames.map String.toList := by
      rw [← names_jsonFields s, documentMembers, List.map_map, List.map_map]
      rfl
    exact names ▸ same.map Prod.fst
  values := by
    intro item listed
    obtain ⟨field, _, rfl⟩ := List.mem_map.mp (same.mem_iff.mp listed)
    exact digits_decimal field.2.toNat

/-- Objects with the members of a state decode to it, whatever the order and the whitespace. -/
theorem deserializeJson_document {s : State} {js : Text} {members : List (Text × Text)} (object : ObjectText js members)
    (same : members.Perm (documentMembers s)) : deserializeJson js = .ok s := by
  rw [(flatDocument_of_perm object same).accepted_iff]
  intro field within
  exact ⟨decimal field.2.toNat, same.mem_iff.mpr (List.mem_map_of_mem within), decimalValue_decimal _⟩

/-- One member a line, or all on one. -/
def layOut (lead trail : Text) : List (Text × Text) → Text
  | [] => trail
  | [(name, value)] => lead ++ (quoted name ++ ([] ++ ':' :: ([' '] ++ (value ++ trail))))
  | (name, value) :: item :: others =>
    lead ++ (quoted name ++ ([] ++ ':' :: ([' '] ++ (value ++ [])))) ++ ',' :: layOut lead trail (item :: others)

theorem separated_layOut {V : Text → Prop} {lead trail : Text} (white : Gap lead) (white' : Gap trail)
    (first : Text × Text) (others : List (Text × Text)) (valid : ∀ item ∈ first :: others, StringBody item.1 ∧ V item.2) :
    Separated (Member V) (layOut lead trail (first :: others)) (first :: others) := by
  have none : Gap [] := by simp [Gap]
  have blank : Gap [' '] := by simp [Gap, isSpace]
  induction others generalizing first with
  | nil =>
    obtain ⟨name, value⟩ := valid first (by simp)
    exact .one (.mk white name none blank value white')
  | cons second others ih =>
    obtain ⟨name, value⟩ := valid first (by simp)
    exact .more (.mk white name none blank value none) (ih second fun item listed => valid item (by simp [listed]))

def newLine (pretty : Bool) : Text := if pretty then ['\n'] else []
def indent (pretty : Bool) : Text := if pretty then [' ', ' '] else []

theorem gap_newLine (pretty : Bool) : Gap (newLine pretty) := by
  cases pretty <;> simp [Gap, newLine, isSpace]
theorem gap_indent (pretty : Bool) : Gap (newLine pretty ++ indent pretty) := by
  cases pretty <;> simp [Gap, newLine, indent, isSpace]

/-- The member that is written for a field under a locale. -/
def written (np : NumPunct) (field : String × Word32) : Text × Text := (field.1.toList, insertUnsigned np field.2)

theorem serializeJson_layOut (np : NumPunct) (s : State) (pretty : Bool) :
    serializeJson np s pretty =
      '{' :: (layOut (newLine pretty ++ indent pretty) (newLine pretty) ((jsonFields s).map (written np)) ++ ['}']) := by
  have colon : ": ".toList = [':', ' '] := rfl
  unfold serializeJson jsonFields
  generalize crc32 ((serializeBinary s).val.take 40) = checksum
  generalize serializationVersion = version
  cases pretty
  · simp only [jsonField, written, colon, layOut, List.map_cons, List.map_nil, List.append_assoc, List.cons_append,
      List.nil_append, List.append_nil, if_false, Bool.false_eq_true, newLine, indent]
  · simp only [jsonField, written, colon, layOut, List.map_cons, List.map_nil, List.append_assoc, List.cons_append,
      List.nil_append, List.append_nil, if_true, newLine, indent]
theorem serializeJson_eq {np : NumPunct} (plain : Ungrouped np) (s : State) (pretty : Bool) :
    serializeJson np s pretty =
      '{' :: (layOut (newLine pretty ++ indent pretty) (newLine pretty) (documentMembers s) ++ ['}']) := by
  have members : (jsonFields s).map (written np) = documentMembers s := by
    apply List.map_congr_left
    intro field _
    rw [written, plain field.2]
  rw [serializeJson_layOut, members]

theorem stringBody_fieldName {key : String} (listed : key ∈ fieldNames) : StringBody key.toList := by
  have names : fieldNames.all (fun key => key.toList.all fun c =>
      c != '"' && c != '\\' && Nat.ble 0x20 c.toNat) = true := by decide +kernel
  have letters := List.all_eq_true.mp names key listed
  simp only [Bool.and_eq_true, List.all_eq_true, bne_iff_ne, Nat.ble_eq] at letters
  have body : ∀ t : Text, (∀ c ∈ t, (c ≠ '"' ∧ c ≠ '\\') ∧ 0x20 ≤ c.toNat) → StringBody t := by
    intro t allowed
    induction t with
    | nil => exact .nil
    | cons c rest ih =>
      obtain ⟨⟨quote, escape⟩, control⟩ := allowed c (by simp)
      exact .plain quote escape control (ih fun d member => allowed d (by simp [member]))
  exact body _ letters

theorem documentMembers_valid (s : State) : ∀ item ∈ documentMembers s, StringBody item.1 ∧ Value item.2 := by
  intro item listed
  obtain ⟨field, within, rfl⟩ := List.mem_map.mp listed
  refine ⟨stringBody_fieldName (mem_fieldNames within), ?_⟩
  rw [← Numeral.text_ofNat]
  exact .number _

/-- What is written for a state is the text of a JSON object with the members of the state. -/
theorem objectText_serializeJson {np : NumPunct} (plain : Ungrouped np) (s : State) (pretty : Bool) :
    ObjectText (serializeJson np s pretty) (documentMembers s) := by
  have none : Gap [] := by simp [Gap]
  rw [serializeJson_eq plain]
  exact .members none (separated_layOut (gap_indent pretty) (gap_newLine pretty) _ _ (documentMembers_valid s)) none

/-- The decoder is complete for the documents of a state, the text written for it among them,
    and agrees on them with the binary decoder. -/
theorem json_complete (s : State) :
    (∀ js members, ObjectText js members → members.Perm (documentMembers s) → deserializeJson js = .ok s) ∧
      ∀ np pretty, Ungrouped np → ObjectText (serializeJson np s pretty) (documentMembers s) ∧
        deserializeJson (serializeJson np s pretty) = .ok s ∧
        deserializeJson (serializeJson np s pretty) = deserializeBinary (serializeBinary s) := by
  refine ⟨fun js members => deserializeJson_document, fun np pretty plain => ?_⟩
  have written := objectText_serializeJson plain s pretty
  have decoded := deserializeJson_document written (List.Perm.refl _)
  exact ⟨written, decoded, decoded.trans (deserializeBinary_serializeBinary s).symm⟩

/-- The members of a state from the last to the first, with blanks, tabs and line ends between them. -/
theorem json_complete_reversed : ∃ s, s.x ≠ 0 ∧ s.counter ≠ 0 ∧ deserializeJson ([' '] ++ '{' ::
    (layOut ['\n', '\t'] [' ', '\r'] (documentMembers s).reverse ++ '}' :: ['\n'])) = .ok s := by
  let s : State := ⟨1, 2, 3, 4, paramFloor, paramFloor, paramFloor, paramFloor, 256⟩
  have lead : Gap ['\n', '\t'] := by simp [Gap, isSpace]
  have trail : Gap [' ', '\r'] := by simp [Gap, isSpace]
  have before : Gap [' '] := by simp [Gap, isSpace]
  have behind : Gap ['\n'] := by simp [Gap, isSpace]
  have valid : ∀ item ∈ (documentMembers s).reverse, StringBody item.1 ∧ Value item.2 := fun item listed =>
    documentMembers_valid s item (List.mem_reverse.mp listed)
  have object : ObjectText ([' '] ++ '{' :: (layOut ['\n', '\t'] [' ', '\r'] (documentMembers s).reverse ++ '}' :: ['\n']))
      (documentMembers s).reverse := .members before (separated_layOut lead trail _ _ valid) behind
  exact ⟨s, by decide, by decide, (json_complete s).1 _ _ object (List.reverse_perm _)⟩

/-! ## What the decoder accepts -/

/-- The decoder's reading of every field, on any text, and its soundness on flat documents. -/
theorem json_exact :
    (∀ js s, deserializeJson js = .ok s ↔ ∀ field ∈ jsonFields s, Reads js field.1.toList field.2.toNat) ∧
      (∀ js e, deserializeJson js = .error e → ∃ what, e = .serializationError what) ∧
      ∀ js members, FlatDocument js members → ∀ s, deserializeJson js = .ok s ↔
        ∀ field ∈ jsonFields s, ∃ value, (field.1.toList, value) ∈ members ∧ decimalValue value = field.2.toNat := by
  refine ⟨fun js s => ?_, deserializeJson_declared, fun js members doc => doc.accepted_iff⟩
  rw [deserializeJson_ok_iff]
  exact forall₂_congr fun field _ => parseJsonUint32_ok_iff js field.1 field.2

/-- The text is that of a JSON object which has each field of the state as a number. -/
def Sound (js : Text) (s : State) : Prop :=
  ∃ members, ObjectText js members ∧ ∀ field ∈ jsonFields s, ∃ numeral : Numeral,
    (field.1.toList, numeral.text) ∈ members ∧ numeral.value = field.2.toNat

/-- No braces and no commas. -/
def bareText : Text :=
  "\"version\":1\"x\":0\"y\":0\"z\":0\"w\":0".toList ++
    "\"alpha\":0\"gamma\":0\"mu\":0\"sigma\":0\"counter\":0\"checksum\":1185460214".toList
/-- An object whose member `x` is written as `value`. -/
def textWithX (value : String) : Text :=
  '{' :: "\"version\":1,\"x\":".toList ++ value.toList ++ ",\"y\":0,\"z\":0,\"w\":0".toList ++
    ",\"alpha\":0,\"gamma\":0,\"mu\":0,\"sigma\":0,\"counter\":0,\"checksum\":3731583818".toList ++ ['}']
/-- An object whose only `x` is the string value of another member. -/
def textWithoutX : Text :=
  '{' :: "\"version\":1,\"note\":\"x\",\"y\":0,\"z\":0,\"w\":0".toList ++
    ",\"alpha\":0,\"gamma\":0,\"mu\":0,\"sigma\":0,\"counter\":0,\"checksum\":1185460214".toList ++ ['}']

/-- The decoder is not sound: it takes a text that is no object, a value that merely begins
    with digits, and a name that stands only inside a string. -/
theorem not_json_sound :
    (¬ ∀ js s, deserializeJson js = .ok s → Sound js s) ∧ deserializeJson (textWithX "42abc") = .ok { x := 42 } ∧
      deserializeJson (textWithX "42.9") = .ok { x := 42 } ∧ deserializeJson textWithoutX = .ok {} := by
  refine ⟨fun sound => ?_, by decide +kernel, by decide +kernel, by decide +kernel⟩
  obtain ⟨members, object, _⟩ := sound bareText {} (by decide +kernel)
  exact not_objectText (by decide) (by decide) object

end Eahcm.Json
