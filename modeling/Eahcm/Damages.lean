import Eahcm.Checksums
import Eahcm.Json

/-!
Damage to exported texts. A text that is cut off is refused unless the whole checksum is there, and
then it decodes to the same state; what follows a whole text is not read (`cut_or_continued`). The
checksum of the binary form protects the numbers of the JSON form as well: of two documents that
spell the same numbers but for one, at most one is accepted (`one_number_caught`).
-/
namespace Eahcm.Damages
open Eahcm.Types Eahcm.LittleEndian Eahcm.Binary Eahcm.Texts Eahcm.JsonGrammar Eahcm.Json Eahcm.ShiftRegisters
open Eahcm.Checksums

/-- A field that is read to the end of its digits reads the same when more text follows. -/
theorem reads_append {text name : Text} {value : Nat} (reads : Reads text name value) {rest : Text}
    (ended : ∀ c ∈ rest.head?, c.isDigit = false) : Reads (text ++ rest) name value := by
  obtain ⟨fromName, gap, digits, after, named, colon, white, run, stops, spelled⟩ := reads
  refine ⟨fromName ++ rest, gap, digits, after ++ rest, named.append rest, ?_, white, run, fun c first => ?_, spelled⟩
  · have later := colon.append rest
    rw [List.cons_append, List.append_assoc, List.append_assoc] at later
    exact later
  · cases after with
    | nil => exact ended c first
    | cons d after => exact stops c first
theorem deserializeJson_append {text : Text} {s : State} (accepted : deserializeJson text = .ok s) {rest : Text}
    (ended : ∀ c ∈ rest.head?, c.isDigit = false) : deserializeJson (text ++ rest) = .ok s := by
  rw [deserializeJson_ok_iff] at accepted ⊢
  exact fun field listed => (parseJsonUint32_ok_iff _ _ _).mpr
    (reads_append ((parseJsonUint32_ok_iff _ _ _).mp (accepted field listed)) ended)

/-- What stands before the last member does not depend on its value, and has its name nowhere. -/
theorem layOut_last {lead : Text} (white : Gap lead) {others : List (Text × Text)} {name : Text}
    (sought : Searchable name) (valid : ∀ item ∈ others, StringBody item.1 ∧ Searchable item.1 ∧ Plain item.2)
    (fresh : name ∉ others.map Prod.fst) :
    ∃ head, (∀ value trail, layOut lead trail (others ++ [(name, value)]) =
        head ++ (quoted name ++ (':' :: ' ' :: (value ++ trail)))) ∧
      ∀ rest, find (quoted name) (head ++ rest) = find (quoted name) rest := by
  induction others with
  | nil => exact ⟨lead, fun value trail => rfl, fun rest => find_skip _ _ _ white.plain⟩
  | cons item others ih =>
    obtain ⟨other, number⟩ := item
    obtain ⟨head, shape, absent⟩ := ih (fun item listed => valid item (List.mem_cons_of_mem _ listed))
      (fun listed => fresh (List.mem_cons_of_mem _ listed))
    obtain ⟨body, searchable, plain⟩ := valid (other, number) List.mem_cons_self
    have none : Gap [] := by simp [Gap]
    have blank : Gap [' '] := by simp [Gap, isSpace]
    have member : Member (fun _ => True) (lead ++ (quoted other ++ ([] ++ ':' :: ([' '] ++ (number ++ []))))) (other, number) :=
      .mk white body none blank trivial none
    have different : other ≠ name := fun same => fresh (by simp [same])
    refine ⟨lead ++ (quoted other ++ ([] ++ ':' :: ([' '] ++ (number ++ [])))) ++ ',' :: head, fun value trail => ?_,
      fun rest => ?_⟩
    · obtain ⟨second, more, split⟩ : ∃ second more, others ++ [(name, value)] = second :: more := by
        cases others with
        | nil => exact ⟨_, _, rfl⟩
        | cons second more => exact ⟨second, more ++ [(name, value)], rfl⟩
      have rest := shape value trail
      rw [split] at rest
      rw [List.cons_append, split, layOut, rest]
      simp only [List.append_assoc, List.cons_append, List.nil_append]
    · rw [List.append_assoc, find_other_member sought member different searchable.plain plain, List.cons_append,
        find_past_separator _ (by decide)]
      exact absent rest

/-- The fields before the checksum. -/
def stateFields (s : State) : List (String × Word32) :=
  [("version", serializationVersion), ("x", s.x), ("y", s.y), ("z", s.z), ("w", s.w), ("alpha", s.alpha),
    ("gamma", s.gamma), ("mu", s.mu), ("sigma", s.sigma), ("counter", s.counter)]
def stateMembers (s : State) : List (Text × Text) :=
  (stateFields s).map fun field => (field.1.toList, decimal field.2.toNat)
/-- The digits of the checksum. -/
def checksumDigits (s : State) : Text := decimal (crc32 ((serializeBinary s).val.take 40)).toNat

theorem jsonFields_eq (s : State) :
    jsonFields s = stateFields s ++ [("checksum", crc32 ((serializeBinary s).val.take 40))] := rfl
theorem documentMembers_eq (s : State) :
    documentMembers s = stateMembers s ++ [("checksum".toList, checksumDigits s)] := by
  rw [documentMembers, jsonFields_eq, List.map_append]
  rfl
theorem mem_stateMembers {s : State} {item : Text × Text} (listed : item ∈ stateMembers s) :
    ∃ field ∈ jsonFields s, item = (field.1.toList, decimal field.2.toNat) := by
  obtain ⟨field, within, rfl⟩ := List.mem_map.mp listed
  exact ⟨field, by rw [jsonFields_eq]; exact List.mem_append_left _ within, rfl⟩
theorem stateMembers_valid (s : State) :
    ∀ item ∈ stateMembers s, StringBody item.1 ∧ Searchable item.1 ∧ Plain item.2 := by
  intro item listed
  obtain ⟨field, within, rfl⟩ := mem_stateMembers listed
  have named := mem_fieldNames within
  exact ⟨stringBody_fieldName named, (fieldNames_searchable named).1, plain_digits (digits_decimal _)⟩
theorem names_stateMembers (s : State) : (stateMembers s).map Prod.fst = fieldNames.dropLast.map String.toList := by
  have names : (stateFields s).map Prod.fst = fieldNames.dropLast := rfl
  rw [← names, stateMembers, List.map_map, List.map_map]
  rfl

/-- What stands before the checksum in an exported text. -/
theorem export_head (s : State) (pretty : Bool) :
    ∃ head, (∀ value trail, '{' :: layOut (newLine pretty ++ indent pretty) trail
          (stateMembers s ++ [("checksum".toList, value)]) =
        head ++ (quoted "checksum".toList ++ (':' :: ' ' :: (value ++ trail)))) ∧
      ∀ rest, find (quoted "checksum".toList) (head ++ rest) = find (quoted "checksum".toList) rest := by
  have fresh : "checksum".toList ∉ (stateMembers s).map Prod.fst := by
    rw [names_stateMembers]
    decide
  obtain ⟨head, shape, absent⟩ := layOut_last (gap_indent pretty)
    (fieldNames_searchable (show "checksum" ∈ fieldNames by decide)).1 (stateMembers_valid s) fresh
  refine ⟨'{' :: head, fun value trail => ?_, fun rest => ?_⟩
  · rw [shape value trail]
    rfl
  · rw [List.cons_append, find_past_separator _ (by decide), absent]

theorem value_decimal (n : Nat) : Value (decimal n) := by
  rw [← Numeral.text_ofNat]
  exact .number _
/-- The eleven members, laid out as an export is. -/
theorem flatDocument_layOut {members : List (Text × Text)} (pretty : Bool)
    (names : (members.map Prod.fst).Perm (fieldNames.map String.toList))
    (numbers : ∀ item ∈ members, Digits item.2 ∧ Value item.2) :
    FlatDocument ('{' :: (layOut (newLine pretty ++ indent pretty) (newLine pretty) members ++ ['}'])) members where
  object := by
    have none : Gap [] := by simp [Gap]
    have valid : ∀ item ∈ members, StringBody item.1 ∧ Value item.2 := by
      intro item listed
      obtain ⟨name, within, same⟩ := List.mem_map.mp (names.mem_iff.mp (List.mem_map_of_mem listed))
      rw [← same]
      exact ⟨stringBody_fieldName within, (numbers item listed).2⟩
    cases members with
    | nil => exact absurd names.length_eq (by decide)
    | cons first others =>
      exact .members none (separated_layOut (gap_indent pretty) (gap_newLine pretty) first others valid) none
  names := names
  values item listed := (numbers item listed).1

/-- Digits in place of the checksum make a document. -/
theorem flatDocument_checksum (s : State) (pretty : Bool) {digits : Text} (run : Digits digits)
    (canonical : digits.head? = some '0' → digits = ['0']) :
    FlatDocument ('{' :: (layOut (newLine pretty ++ indent pretty) (newLine pretty)
      (stateMembers s ++ [("checksum".toList, digits)]) ++ ['}'])) (stateMembers s ++ [("checksum".toList, digits)]) := by
  refine flatDocument_layOut pretty ?_ fun item listed => ?_
  · rw [List.map_append, names_stateMembers]
    exact List.Perm.refl _
  · rcases List.mem_append.mp listed with before | last
    · obtain ⟨field, _, rfl⟩ := mem_stateMembers before
      exact ⟨digits_decimal _, value_decimal _⟩
    · rw [List.mem_singleton.mp last]
      refine ⟨run, ?_⟩
      rw [← decimal_decimalValue run canonical]
      exact value_decimal _

/-! ## One number -/

theorem wordOf_field (s : State) {i : Nat} {field : String × Word32} (here : (jsonFields s)[i]? = some field) :
    wordOf (serializeBinary s) i = field.2 := by
  apply wordOf_serializeBinary
  have words : serializationVersion :: fields s ++ [crc32 (versionAndState s)] = (jsonFields s).map Prod.snd := rfl
  rw [words, List.getElem?_map, here]
  rfl

/-- States whose documents have the same numbers but for one are the same. -/
theorem eq_of_one_number {s t : State} (k : Nat)
    (same : ∀ i : Nat, i ≠ k → (jsonFields s)[i]?.map Prod.snd = (jsonFields t)[i]?.map Prod.snd) : s = t := by
  have words (i : Nat) (inside : i < 11) (other : i ≠ k) :
      wordOf (serializeBinary s) i = wordOf (serializeBinary t) i := by
    have left : i < (jsonFields s).length := inside
    have right : i < (jsonFields t).length := inside
    have numbers := same i other
    rw [List.getElem?_eq_getElem left, List.getElem?_eq_getElem right] at numbers
    rw [wordOf_field s (List.getElem?_eq_getElem left), wordOf_field t (List.getElem?_eq_getElem right)]
    exact Option.some.inj numbers
  exact serializeBinary_injective (eq_of_window (deserializeBinary_serializeBinary s)
    (deserializeBinary_serializeBinary t) (flipped_within words))

/-- What two accepted documents spell for a name. -/
theorem numbers_agree {js js' : Text} {members members' : List (Text × Text)} (doc : FlatDocument js members)
    (doc' : FlatDocument js' members') {s t : State} (accepted : deserializeJson js = .ok s)
    (accepted' : deserializeJson js' = .ok t) {name : String} {value value' : Word32}
    (inside : (name, value) ∈ jsonFields s) (inside' : (name, value') ∈ jsonFields t)
    (same : ∀ item ∈ members', item.1 = name.toList → ∃ digits, (item.1, digits) ∈ members ∧
      decimalValue digits = decimalValue item.2) : value = value' := by
  obtain ⟨digits, listed, spelled⟩ := (doc.accepted_iff s).mp accepted _ inside
  obtain ⟨digits', listed', spelled'⟩ := (doc'.accepted_iff t).mp accepted' _ inside'
  obtain ⟨other, listedOther, equal⟩ := same _ listed' rfl
  have only := congrArg Prod.snd (List.inj_on_of_nodup_map doc.distinct listed listedOther rfl)
  simp only at only
  rw [← only, spelled] at equal
  exact BitVec.eq_of_toNat_eq (equal.trans spelled')

/-- Fields of the same names that have the same values but for one name have them but for one place. -/
theorem one_place {a b : List (String × Word32)} (names : a.map Prod.fst = b.map Prod.fst)
    (distinct : (a.map fun field => field.1.toList).Nodup) (name : Text)
    (same : ∀ n v v', (n, v) ∈ a → (n, v') ∈ b → n.toList ≠ name → v = v') :
    ∃ k, ∀ i : Nat, i ≠ k → a[i]?.map Prod.snd = b[i]?.map Prod.snd := by
  refine ⟨(a.map fun field => field.1.toList).idxOf name, fun i other => ?_⟩
  have length : a.length = b.length := by simpa using congrArg List.length names
  by_cases inside : i < a.length
  · have inside' : i < b.length := by omega
    have named : a[i].1 = b[i].1 := by
      have both := congrArg (·[i]?) names
      simp only [List.getElem?_map, List.getElem?_eq_getElem inside, List.getElem?_eq_getElem inside'] at both
      exact Option.some.inj both
    have fresh : a[i].1.toList ≠ name := by
      rintro rfl
      have place := distinct.idxOf_getElem i (by simpa using inside)
      rw [List.getElem_map] at place
      exact other place.symm
    have here : (a[i].1, b[i].2) ∈ b := by
      rw [named]
      exact List.getElem_mem inside'
    rw [List.getElem?_eq_getElem inside, List.getElem?_eq_getElem inside', Option.map_some, Option.map_some]
    exact congrArg some (same _ _ _ (List.getElem_mem inside) here fresh)
  · rw [List.getElem?_eq_none (by omega), List.getElem?_eq_none (by omega)]

/-- Accepted documents that spell the same numbers but for those of one name spell the same state. -/
theorem eq_of_others {js js' : Text} {members members' : List (Text × Text)} (doc : FlatDocument js members)
    (doc' : FlatDocument js' members') (name : Text)
    (others : ∀ item ∈ members', item.1 ≠ name → ∃ digits, (item.1, digits) ∈ members ∧
      decimalValue digits = decimalValue item.2) {s t : State} (accepted : deserializeJson js = .ok s)
    (accepted' : deserializeJson js' = .ok t) : s = t := by
  have distinct : ((jsonFields s).map fun field => field.1.toList).Nodup := by
    have names : ((jsonFields s).map fun field => field.1.toList) = fieldNames.map String.toList := by
      rw [← names_jsonFields s, List.map_map]
      rfl
    rw [names]
    decide
  obtain ⟨k, same⟩ := one_place ((names_jsonFields s).trans (names_jsonFields t).symm) distinct name
    fun n v v' inside inside' fresh => numbers_agree doc doc' accepted accepted' inside inside' fun item member named =>
      others item member (named ▸ fresh)
  exact eq_of_one_number k same

/-- The members of a state without a closing brace, or with one and anything behind it. -/
theorem deserializeJson_laid {lead trail : Text} (white : Gap lead) (white' : Gap trail) (s : State) {rest : Text}
    (ended : ∀ c ∈ rest.head?, c = ',' ∨ c = '}') :
    deserializeJson ('{' :: (layOut lead trail (documentMembers s) ++ rest)) = .ok s := by
  have valid : ∀ item ∈ documentMembers s, StringBody item.1 ∧ True := by
    intro item listed
    obtain ⟨field, within, rfl⟩ := List.mem_map.mp listed
    exact ⟨stringBody_fieldName (mem_fieldNames within), trivial⟩
  have plain : ∀ item ∈ documentMembers s, Searchable item.1 ∧ Plain item.2 := by
    intro item listed
    obtain ⟨field, within, rfl⟩ := List.mem_map.mp listed
    exact ⟨(fieldNames_searchable (mem_fieldNames within)).1, plain_digits (digits_decimal _)⟩
  have distinct : ((documentMembers s).map Prod.fst).Nodup := by
    rw [documentMembers_eq, List.map_append, names_stateMembers]
    change (fieldNames.dropLast.map String.toList ++ ["checksum".toList]).Nodup
    decide
  have text : Separated (Member fun _ => True) (layOut lead trail (documentMembers s)) (documentMembers s) :=
    separated_layOut white white' _ _ valid
  rw [deserializeJson_ok_iff]
  intro field listed
  obtain ⟨found, named, ⟨gap, gap', after, rfl, space, space', stops⟩⟩ :=
    find_member text distinct plain rest ended (List.mem_map_of_mem listed)
  rw [← find_past_separator _ (show '{' ≠ '"' by decide)] at named
  rw [parse_found (mem_fieldNames listed) named space space' (digits_decimal _)
    fun c first => not_isDigit_of_ended (stops c first), decimalValue_decimal, if_pos field.2.isLt, BitVec.ofNat_toNat,
    BitVec.setWidth_eq]

/-- An accepted front of a text in which the checksum stands behind `head` reaches into what is behind
    its colon and blank. -/
theorem reaches_checksum {head rest front behind : Text} {s : State} (accepted : deserializeJson front = .ok s)
    (whole : front ++ rest = head ++ (quoted "checksum".toList ++ ':' :: ' ' :: behind))
    (absent : ∀ rest, find (quoted "checksum".toList) (head ++ rest) = find (quoted "checksum".toList) rest) :
    ∃ part, part ≠ [] ∧ front = head ++ (quoted "checksum".toList ++ ':' :: ' ' :: part) ∧ part ++ rest = behind := by
  have listed : ("checksum", crc32 ((serializeBinary s).val.take 40)) ∈ jsonFields s := by simp [jsonFields]
  obtain ⟨fromName, gap, digits, after, named, colon, white, run, _, _⟩ :=
    (parseJsonUint32_ok_iff _ _ _).mp ((deserializeJson_ok_iff _ s).mp accepted _ listed)
  -- the name is found where it stands in the whole text
  have name : fromName ++ rest = quoted "checksum".toList ++ ':' :: ' ' :: behind := by
    have found := find_eq_some_iff.mpr (named.append rest)
    rw [whole, absent, find_here (List.prefix_append _ _)] at found
    exact (Option.some.inj found).symm
  obtain ⟨before, rfl, _⟩ := named.earliest
  have same : before = head := by
    rw [List.append_assoc, name] at whole
    exact List.append_cancel_right whole
  -- and so is the colon
  have plainName : (quoted "checksum".toList).all (· != ':') = true := rfl
  have noColon : ∀ c ∈ quoted "checksum".toList, c ≠ ':' := fun c inside =>
    bne_iff_ne.mp (List.all_eq_true.mp plainName c inside)
  have value : ':' :: (gap ++ (digits ++ after)) ++ rest = ':' :: ' ' :: behind := by
    have found := find_eq_some_iff.mpr (colon.append rest)
    rw [name, find_singleton ':' _ _ noColon] at found
    exact (Option.some.inj found).symm
  obtain ⟨between, rfl, _⟩ := colon.earliest
  have quotedName : between = quoted "checksum".toList := by
    rw [List.append_assoc, value] at name
    exact List.append_cancel_right name
  subst same quotedName
  rw [List.cons_append, List.cons.injEq] at value
  -- the digits do not begin with the blank, so it belongs to the gap
  rcases gap with _ | ⟨c, gap⟩
  · obtain ⟨d, digits', rfl⟩ := List.exists_cons_of_ne_nil run.1
    have blank : d = ' ' := (List.cons.inj value.2).1
    have digit := run.2 d List.mem_cons_self
    rw [blank] at digit
    cases digit
  · obtain ⟨rfl, rfl⟩ := List.cons.inj value.2
    exact ⟨gap ++ (digits ++ after), by simp [run.1], rfl, rfl⟩

/-- A front that ends inside the digits of the checksum is not accepted. -/
theorem not_inside_checksum {np : NumPunct} (plain : Ungrouped np) {s s' : State} (pretty : Bool) {head part more : Text}
    (shape : ∀ value trail, '{' :: layOut (newLine pretty ++ indent pretty) trail
      (stateMembers s ++ [("checksum".toList, value)]) = head ++ (quoted "checksum".toList ++ ':' :: ' ' :: (value ++ trail)))
    (some : part ≠ []) (split : checksumDigits s = part ++ more) (cut : more ≠ []) :
    deserializeJson (head ++ (quoted "checksum".toList ++ ':' :: ' ' :: part)) ≠ .ok s' := by
  intro accepted
  have all : Digits (checksumDigits s) := digits_decimal _
  have run : Digits part := ⟨some, fun c member => all.2 c (by rw [split]; exact List.mem_append_left _ member)⟩
  have starts : (checksumDigits s).head? = part.head? := by rw [split, List.head?_append_of_ne_nil _ some]
  have nonzero : part.head? ≠ .some '0' := by
    intro zero
    have one := congrArg List.length (head_decimal _ (starts.trans zero))
    change (checksumDigits s).length = 1 at one
    rw [split, List.length_append] at one
    have := List.length_pos_iff.mpr some
    have := List.length_pos_iff.mpr cut
    omega
  -- with the end of the whole text behind it, it is a document with another checksum
  have doc := flatDocument_checksum s pretty run fun zero => absurd zero nonzero
  have ended : ∀ c ∈ (newLine pretty ++ ['}']).head?, c.isDigit = false := by cases pretty <;> simp [newLine]
  have closed := deserializeJson_append accepted ended
  have text : head ++ (quoted "checksum".toList ++ ':' :: ' ' :: part) ++ (newLine pretty ++ ['}']) =
      '{' :: (layOut (newLine pretty ++ indent pretty) (newLine pretty)
        (stateMembers s ++ [("checksum".toList, part)]) ++ ['}']) := by
    rw [← List.cons_append, shape part (newLine pretty)]
    simp only [List.append_assoc, List.cons_append]
  rw [text] at closed
  have whole := objectText_serializeJson plain s pretty
  have same : s = s' := by
    refine eq_of_others (flatDocument_of_perm whole (List.Perm.refl _)) doc "checksum".toList (fun item member other => ?_)
      (deserializeJson_document whole (List.Perm.refl _)) closed
    rcases List.mem_append.mp member with before | last
    · exact ⟨item.2, by rw [documentMembers_eq]; exact List.mem_append_left _ before, rfl⟩
    · rw [List.mem_singleton.mp last] at other
      exact absurd rfl other
  subst same
  have listed : ("checksum", crc32 ((serializeBinary s).val.take 40)) ∈ jsonFields s := by simp [jsonFields]
  obtain ⟨value, member, spelled⟩ := (doc.accepted_iff s).mp closed _ listed
  have here : ("checksum".toList, part) ∈ stateMembers s ++ [("checksum".toList, part)] := by simp
  have only : value = part := congrArg Prod.snd (List.inj_on_of_nodup_map doc.distinct member here rfl)
  rw [only] at spelled
  refine decimalValue_ne run nonzero (fun canonical => cut ?_) spelled
  have lengths := congrArg List.length (canonical.trans split)
  rw [List.length_append] at lengths
  exact List.length_eq_zero_iff.mp (by omega)

/-- A front of an exported text is accepted exactly when it holds the whole checksum, all but the last
    line break and brace, and then it decodes to the exported state; every other is refused. Whatever
    follows a whole exported text is not read. -/
theorem cut_or_continued {np : NumPunct} (plain : Ungrouped np) (s : State) (pretty : Bool) :
    (∀ front rest, serializeJson np s pretty = front ++ rest →
      (rest.length ≤ (newLine pretty).length + 1 → deserializeJson front = .ok s) ∧
        ((newLine pretty).length + 1 < rest.length → ∃ what, deserializeJson front = .error (.serializationError what))) ∧
      ∀ more, deserializeJson (serializeJson np s pretty ++ more) = .ok s := by
  obtain ⟨head, shape, absent⟩ := export_head s pretty
  have whole : serializeJson np s pretty =
      head ++ (quoted "checksum".toList ++ ':' :: ' ' :: (checksumDigits s ++ (newLine pretty ++ ['}']))) := by
    rw [serializeJson_eq plain, ← List.cons_append, documentMembers_eq, shape]
    simp only [List.append_assoc, List.cons_append]
  have continued (more : Text) : deserializeJson (serializeJson np s pretty ++ more) = .ok s := by
    rw [serializeJson_eq plain, List.cons_append, List.append_assoc]
    exact deserializeJson_laid (gap_indent pretty) (gap_newLine pretty) s (by simp)
  refine ⟨fun front rest split => ⟨fun short => ?_, fun long => ?_⟩, continued⟩
  · have tail : rest <:+ newLine pretty ++ ['}'] := by
      refine List.suffix_of_suffix_length_le ⟨front, split.symm⟩ ?_ (by simpa using short)
      rw [whole]
      exact ⟨head ++ (quoted "checksum".toList ++ ':' :: ' ' :: checksumDigits s), by simp⟩
    obtain ⟨kept, ends⟩ := tail
    by_cases none : rest = []
    · rw [none, List.append_nil] at split
      rw [← split, ← List.append_nil (serializeJson np s pretty)]
      exact continued []
    · have before : kept <+: newLine pretty := by
        have lengths := congrArg List.length ends
        have := List.length_pos_iff.mpr none
        rw [List.length_append, List.length_append, List.length_singleton] at lengths
        exact List.prefix_of_prefix_length_le ⟨rest, ends⟩ (List.prefix_append _ _) (by omega)
      have white : Gap kept := fun c member => gap_newLine pretty c (before.subset member)
      have cut : front = '{' :: (layOut (newLine pretty ++ indent pretty) kept (documentMembers s) ++ []) := by
        rw [List.append_nil, documentMembers_eq, shape]
        rw [split, ← ends] at whole
        refine List.append_cancel_right (whole.trans ?_)
        simp only [List.append_assoc, List.cons_append]
      rw [cut]
      exact deserializeJson_laid (gap_indent pretty) white s (by simp)
  · rcases decoded : deserializeJson front with e | s'
    · obtain ⟨what, rfl⟩ := deserializeJson_declared front e decoded
      exact ⟨what, rfl⟩
    · obtain ⟨part, some, rfl, behind⟩ := reaches_checksum decoded (split.symm.trans whole) absent
      have lengths := congrArg List.length behind
      simp only [List.length_append, List.length_singleton] at lengths
      obtain ⟨more, digits⟩ : part <+: checksumDigits s :=
        List.prefix_of_prefix_length_le ⟨rest, behind⟩ (List.prefix_append _ _) (by omega)
      refine absurd decoded (not_inside_checksum plain pretty shape some digits.symm ?_)
      rintro rfl
      have := congrArg List.length digits
      rw [List.append_nil] at this
      omega

/-- The pretty text of the zero state without its brace, and its first 60 characters. -/
theorem cut_or_continued_zero : deserializeJson ((serializeJson classic {} true).take 151) = .ok {} ∧
    ∃ what, deserializeJson ((serializeJson classic {} true).take 60) = .error (.serializationError what) := by
  have cut := (cut_or_continued classic_ungrouped {} true).1
  exact ⟨(cut _ _ (List.take_append_drop 151 _).symm).1 (by decide +kernel),
    (cut _ _ (List.take_append_drop 60 _).symm).2 (by decide +kernel)⟩

end Eahcm.Damages
