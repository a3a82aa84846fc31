import Eahcm.Json

/-!
The JSON form under other locales. The writer inserts its numbers into a stream, and the stream
groups their digits as the global locale of the moment has it; the reader knows nothing of
locales. A number longer than the first group is written with a separator in it, and then no
separator, be it a digit or a character of the format, lets it be read back: the form survives
in the locales that divide none of its numbers, and in no other (`locale_roundTrip_iff`).
-/
namespace Eahcm.Locales
open Eahcm.Types Eahcm.Binary Eahcm.Texts Eahcm.JsonGrammar Eahcm.Json

/-- A locale does not divide the number: it has no groups, or the first takes all digits. -/
def Unbroken (np : NumPunct) (value : Word32) : Prop :=
  ∀ size ∈ np.grouping.head?, size ≤ 0 ∨ size = charMax ∨ ((decimal value.toNat).length : Int) ≤ size

/-- Digits, and the same with separators written between them, the first after `lead`. -/
inductive Divided (sep : Char) : Text → Text → Prop
  | mk {lead rest tail : Text} : lead ≠ [] → rest ≠ [] → rest.length ≤ tail.length →
      (∀ c ∈ tail, c = sep ∨ c ∈ rest) → Divided sep (lead ++ rest) (lead ++ sep :: tail)

/-- From the right, the digits come out as they are, or divided with `lead` beyond the last
    separator. -/
theorem groupDigits_cases (sep : Char) (grouping : List Int) (printed : Nat) (digits : Text) :
    groupDigits sep grouping printed digits = digits ∨
      ∃ tail rest lead, digits = rest ++ lead ∧ groupDigits sep grouping printed digits = tail ++ sep :: lead ∧
        lead ≠ [] ∧ rest.length ≤ tail.length ∧ ∀ c ∈ tail, c = sep ∨ c ∈ rest := by
  fun_induction groupDigits sep grouping printed digits with
  | case1 => exact Or.inl rfl
  | case2 => exact Or.inl rfl
  | case3 => exact Or.inl rfl
  | case4 size more printed d digits _ _ ih =>
    rcases ih with same | ⟨tail, rest, lead, rfl, result, some, longer, within⟩
    · exact Or.inl (by rw [same])
    · refine Or.inr ⟨d :: tail, d :: rest, lead, rfl, by rw [result]; rfl, some, by simpa using longer, ?_⟩
      intro c member
      rcases List.mem_cons.mp member with rfl | member
      · exact Or.inr (by simp)
      · exact (within c member).imp_right fun inRest => by simp [inRest]
  | case5 size more printed d digits _ _ ih =>
    rcases ih with same | ⟨tail, rest, lead, rfl, result, some, longer, within⟩
    · exact Or.inr ⟨[], [], d :: digits, rfl, by rw [same]; rfl, by simp, by simp, by simp⟩
    · refine Or.inr ⟨sep :: d :: tail, d :: rest, lead, rfl, by rw [result]; rfl, some, ?_, ?_⟩
      · simp only [List.length_cons]
        omega
      · intro c member
        rcases List.mem_cons.mp member with rfl | member
        · exact Or.inl rfl
        rcases List.mem_cons.mp member with rfl | member
        · exact Or.inr (by simp)
        · exact (within c member).imp_right fun inRest => by simp [inRest]
theorem length_le_groupDigits (sep : Char) (grouping : List Int) (printed : Nat) (digits : Text) :
    digits.length ≤ (groupDigits sep grouping printed digits).length := by
  rcases groupDigits_cases sep grouping printed digits with same | ⟨tail, rest, lead, rfl, result, _, longer, _⟩
  · rw [same]
  · rw [result]
    simp only [List.length_append, List.length_cons]
    omega

/-- Digits that fit what is left of the first group stay as they are. -/
theorem groupDigits_of_fits (sep : Char) {size : Int} (more : List Int) {printed : Nat} {digits : Text}
    (fits : size ≤ 0 ∨ size = charMax ∨ ((printed + digits.length : Nat) : Int) ≤ size) :
    groupDigits sep (size :: more) printed digits = digits := by
  induction digits generalizing printed with
  | nil => rw [groupDigits]
  | cons d digits ih =>
    rw [groupDigits]
    by_cases ends : size ≤ 0 ∨ size = charMax
    · rw [if_pos ends]
    · have room : (printed + (digits.length + 1) : Nat) ≤ size := by
        rcases fits with ends' | ends' | room
        · exact absurd (Or.inl ends') ends
        · exact absurd (Or.inr ends') ends
        · simpa using room
      rw [if_neg ends, if_pos (by omega), ih (Or.inr (Or.inr (by omega)))]
/-- Digits that do not fit are divided. -/
theorem groupDigits_ne (sep : Char) {size : Int} (more : List Int) {printed : Nat} {digits : Text}
    (groups : ¬ (size ≤ 0 ∨ size = charMax)) (room : printed ≤ size)
    (exceeds : size < ((printed + digits.length : Nat) : Int)) :
    groupDigits sep (size :: more) printed digits ≠ digits := by
  induction digits generalizing printed with
  | nil =>
    simp only [List.length_nil] at exceeds
    omega
  | cons d digits ih =>
    rw [groupDigits, if_neg groups]
    rw [List.length_cons] at exceeds
    by_cases inside : (printed : Int) < size
    · rw [if_pos inside]
      intro same
      exact ih (show ((printed + 1 : Nat) : Int) ≤ size by omega) (by omega) (List.cons.inj same).2
    · rw [if_neg inside]
      intro same
      have longer := length_le_groupDigits sep (if more.isEmpty then [size] else more) 1 digits
      have lengths := congrArg List.length same
      simp only [List.length_cons] at lengths
      omega

theorem insertUnsigned_of_unbroken {np : NumPunct} {value : Word32} (unbroken : Unbroken np value) :
    insertUnsigned np value = decimal value.toNat := by
  rw [insertUnsigned]
  cases sizes : np.grouping with
  | nil =>
    have whole (digits : Text) : groupDigits np.thousandsSep [] 0 digits = digits := by cases digits <;> rfl
    rw [whole, List.reverse_reverse]
  | cons size more =>
    have fits := unbroken size (by simp [sizes])
    rw [groupDigits_of_fits _ more (by simpa using fits), List.reverse_reverse]

theorem divided_of_broken {np : NumPunct} {value : Word32} (broken : ¬ Unbroken np value) :
    Divided np.thousandsSep (decimal value.toNat) (insertUnsigned np value) := by
  obtain ⟨size, more, sizes⟩ : ∃ size more, np.grouping = size :: more := by
    cases sizes : np.grouping with
    | nil => exact absurd (fun size first => by simp [sizes] at first) broken
    | cons size more => exact ⟨size, more, rfl⟩
  have long : ¬ (size ≤ 0 ∨ size = charMax ∨ ((decimal value.toNat).length : Int) ≤ size) := by
    simpa [Unbroken, sizes] using broken
  have groups : ¬ (size ≤ 0 ∨ size = charMax) := fun ends => long (ends.imp_right Or.inl)
  obtain ⟨d, digits, reversed⟩ := List.exists_cons_of_ne_nil (List.reverse_ne_nil_iff.mpr (decimal_ne_nil value.toNat))
  have length : (decimal value.toNat).length = digits.length + 1 := by
    rw [← List.length_reverse, reversed, List.length_cons]
  have first : ((0 : Nat) : Int) < size := by omega
  have divides : groupDigits np.thousandsSep (size :: more) 1 digits ≠ digits :=
    groupDigits_ne _ more groups (by omega) (by omega)
  rcases groupDigits_cases np.thousandsSep (size :: more) 1 digits with
    same | ⟨tail, rest, lead, split, result, some, longer, within⟩
  · exact absurd same divides
  have forward : decimal value.toNat = lead.reverse ++ (d :: rest).reverse := by
    rw [← List.reverse_append, List.cons_append, ← split, ← reversed, List.reverse_reverse]
  have written : insertUnsigned np value = lead.reverse ++ np.thousandsSep :: (d :: tail).reverse := by
    rw [insertUnsigned, sizes, reversed, groupDigits, if_neg groups, if_pos first, Nat.zero_add, result]
    simp
  rw [forward, written]
  refine .mk (by simpa using some) (by simp) (by simpa using longer) ?_
  intro c member
  rw [List.mem_reverse] at member ⊢
  rcases List.mem_cons.mp member with rfl | member
  · exact Or.inr (by simp)
  · exact (within c member).imp_right fun inRest => by simp [inRest]

/-- What is read of a divided number is a run of digits without a leading zero, and not the number:
    it ends at the first separator, or takes all separators in when they are digits. -/
theorem Divided.run {sep : Char} {n : Nat} {written : Text} (divided : Divided sep (decimal n) written) {after : Text}
    (ended : ∀ c ∈ after.head?, c.isDigit = false) :
    ∃ digits after', written ++ after = digits ++ after' ∧ Digits digits ∧ (∀ c ∈ after'.head?, c.isDigit = false) ∧
      decimalValue digits ≠ n := by
  have plain := isDigit_decimal n
  have canonical := head_decimal n
  generalize number : decimal n = digits at divided plain canonical
  obtain @⟨lead, rest, tail, present, more, longer, within⟩ := divided
  have starts (t : Text) : (lead ++ t).head? = lead.head? := List.head?_append_of_ne_nil _ present
  have nonzero : lead.head? ≠ some '0' := by
    intro zero
    have one := congrArg List.length (canonical ((starts rest).trans zero))
    have := List.length_pos_iff.mpr present
    have := List.length_pos_iff.mpr more
    simp only [List.length_append, List.length_singleton] at one
    omega
  by_cases digit : sep.isDigit = true
  · have all : Digits (lead ++ sep :: tail) := by
      refine ⟨by simp, fun c member => ?_⟩
      rcases List.mem_append.mp member with inLead | member
      · exact plain c (by simp [inLead])
      rcases List.mem_cons.mp member with rfl | inTail
      · exact digit
      rcases within c inTail with rfl | inRest
      · exact digit
      · exact plain c (by simp [inRest])
    refine ⟨_, after, rfl, all, ended, decimalValue_ne all (by rwa [starts]) fun same => ?_⟩
    have lengths := congrArg List.length (same.trans number)
    simp only [List.length_append, List.length_cons] at lengths
    omega
  · have front : Digits lead := ⟨present, fun c member => plain c (by simp [member])⟩
    refine ⟨lead, sep :: (tail ++ after), by simp, front, by simpa using digit, decimalValue_ne front nonzero fun same => ?_⟩
    have whole : lead = lead ++ rest := same.trans number
    exact more (List.self_eq_append_right.mp whole)

/-- A member that reads as its value at its own place is written without separators. -/
theorem unbroken_of_own {np : NumPunct} {t rest : Text} {field : String × Word32} (named : field.1 ∈ fieldNames)
    (member : Member (fun _ => True) t (written np field)) (ended : ∀ c ∈ rest.head?, c = ',' ∨ c = '}')
    (reads : parseJsonUint32 (t ++ rest) field.1 = .ok field.2) : Unbroken np field.2 := by
  by_contra broken
  obtain ⟨found, here, ⟨gap, gap', after, rfl, white, white', stops⟩⟩ := find_own_member member rest _ ended
  have divided : Divided np.thousandsSep (decimal field.2.toNat) (written np field).2 := divided_of_broken broken
  obtain ⟨digits, after', split, run, ended', differs⟩ := divided.run fun c first => not_isDigit_of_ended (stops c first)
  rw [split] at here
  rw [parse_found named here white white' run ended'] at reads
  by_cases small : decimalValue digits < 2 ^ 32
  · rw [if_pos small] at reads
    apply differs
    rw [← Except.ok.inj reads, BitVec.toNat_ofNat, Nat.mod_eq_of_lt small]
  · rw [if_neg small] at reads
    cases reads

theorem parse_congr {a b : Text} {key : String} (same : find (quoted key.toList) a = find (quoted key.toList) b) :
    parseJsonUint32 a key = parseJsonUint32 b key := by
  rw [parseJsonUint32, parseJsonUint32, same]

/-- Past a member of another name that is written without separators, a field reads as in what
    follows. -/
theorem parse_past {np : NumPunct} {t rest : Text} {field : String × Word32} (named : field.1 ∈ fieldNames)
    (member : Member (fun _ => True) t (written np field)) (unbroken : Unbroken np field.2) {key : String}
    (sought : key ∈ fieldNames) (different : field.1 ≠ key) :
    parseJsonUint32 (t ++ ',' :: rest) key = parseJsonUint32 rest key := by
  have number : Plain (written np field).2 := by
    rw [written, insertUnsigned_of_unbroken unbroken]
    exact plain_digits (digits_decimal _)
  have other : (written np field).1 ≠ key.toList := fun same => different (String.toList_inj.mp same)
  have searchable := (fieldNames_searchable sought).1
  apply parse_congr
  rw [find_other_member searchable member other (fieldNames_searchable named).1.plain number]
  exact find_past_separator _ (by decide) _

/-- Members that read as their values are written without separators: the first is found at its own
    place, and once its number is known to be plain, the searches for the others pass over it. -/
theorem unbroken_of_reads {np : NumPunct} {inner rest : Text} {fields : List (String × Word32)}
    (text : Separated (Member fun _ => True) inner (fields.map (written np)))
    (names : ∀ field ∈ fields, field.1 ∈ fieldNames) (distinct : (fields.map Prod.fst).Nodup)
    (ended : ∀ c ∈ rest.head?, c = ',' ∨ c = '}')
    (reads : ∀ field ∈ fields, parseJsonUint32 (inner ++ rest) field.1 = .ok field.2) :
    ∀ field ∈ fields, Unbroken np field.2 := by
  generalize same : fields.map (written np) = members at text
  induction text generalizing fields with
  | one member =>
    obtain ⟨field, rfl, rfl⟩ := List.map_eq_singleton_iff.mp same
    rintro _ listed
    obtain rfl := List.mem_singleton.mp listed
    exact unbroken_of_own (names _ listed) member ended (reads _ listed)
  | @more t inner item others member _ ih =>
    obtain ⟨first, fields, rfl, rfl, rfl⟩ := List.map_eq_cons_iff.mp same
    rw [List.append_assoc, List.cons_append] at reads
    obtain ⟨fresh, distinct⟩ := List.nodup_cons.mp distinct
    have named := names first (by simp)
    have plain : Unbroken np first.2 := unbroken_of_own named member (by simp) (reads first (by simp))
    have later : ∀ field ∈ fields, Unbroken np field.2 := by
      refine ih (fun field listed => names field (by simp [listed])) distinct (fun field listed => ?_) rfl
      have different : first.1 ≠ field.1 := fun same => fresh (List.mem_map.mpr ⟨field, listed, same.symm⟩)
      rw [← reads field (by simp [listed])]
      exact (parse_past named member plain (names field (by simp [listed])) different).symm
    intro field listed
    rcases List.mem_cons.mp listed with rfl | listed
    · exact plain
    · exact later field listed

/-- A state whose numbers a locale does not divide is written as in the classic locale. -/
theorem serializeJson_of_unbroken {np : NumPunct} {s : State} (unbroken : ∀ field ∈ jsonFields s, Unbroken np field.2)
    (pretty : Bool) : serializeJson np s pretty = serializeJson classic s pretty := by
  have members : (jsonFields s).map (written np) = (jsonFields s).map (written classic) := by
    apply List.map_congr_left
    intro field listed
    rw [written, written, insertUnsigned_of_unbroken (unbroken field listed), classic_ungrouped]
  rw [serializeJson_layOut, serializeJson_layOut, members]

/-- What is written for a state under a locale is read back as that state when the locale divides
    none of the numbers in it, and not otherwise. -/
theorem locale_roundTrip_iff (np : NumPunct) (s : State) (pretty : Bool) :
    deserializeJson (serializeJson np s pretty) = .ok s ↔ ∀ field ∈ jsonFields s, Unbroken np field.2 := by
  have distinct : ((jsonFields s).map Prod.fst).Nodup := by
    rw [names_jsonFields]
    decide
  constructor
  · intro decoded
    have valid : ∀ item ∈ (jsonFields s).map (written np), StringBody item.1 ∧ True := by
      intro item listed
      obtain ⟨field, within, rfl⟩ := List.mem_map.mp listed
      exact ⟨stringBody_fieldName (mem_fieldNames within), trivial⟩
    have text : Separated (Member fun _ => True)
        (layOut (newLine pretty ++ indent pretty) (newLine pretty) ((jsonFields s).map (written np)))
        ((jsonFields s).map (written np)) :=
      separated_layOut (gap_indent pretty) (gap_newLine pretty) _ _ valid
    have brace : ∀ c ∈ ['}'].head?, c = ',' ∨ c = '}' := by simp
    refine unbroken_of_reads text (fun _ => mem_fieldNames) distinct brace fun field listed => ?_
    have read := (deserializeJson_ok_iff _ s).mp decoded field listed
    rw [serializeJson_layOut] at read
    exact (parse_congr (find_past_separator _ (by decide) _).symm).trans read
  · intro unbroken
    rw [serializeJson_of_unbroken unbroken]
    exact deserializeJson_document (objectText_serializeJson classic_ungrouped s pretty) (List.Perm.refl _)

/-- Groups of three, and the checksum of the zero state is read up to its first comma. -/
theorem not_locale_free :
    (¬ ∀ np s pretty, deserializeJson (serializeJson np s pretty) = .ok s) ∧
      deserializeJson (serializeJson ⟨[3], ','⟩ {} false) = .error jsonChecksumMismatch := by
  have refused : deserializeJson (serializeJson ⟨[3], ','⟩ {} false) = .error jsonChecksumMismatch := by decide +kernel
  refine ⟨fun always => ?_, refused⟩
  rw [always] at refused
  cases refused

end Eahcm.Locales
