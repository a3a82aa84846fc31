import Mathlib.Data.Rat.Defs
import Eahcm.Texts

/-!
The grammar of JSON texts (RFC 8259), and where the first occurrence of a quoted name lies in
the text of an object: at the member of that name, provided that neither names nor values
contain quotation marks (`find_in_object`).
-/
namespace Eahcm.JsonGrammar
open Eahcm.Texts

def isSpace (c : Char) : Bool := c == ' ' || c == '\t' || c == '\n' || c == '\r'
/-- Whitespace between tokens, possibly none. -/
def Gap (t : List Char) : Prop := ∀ c ∈ t, isSpace c = true
def quoted (name : List Char) : List Char := '"' :: (name ++ ['"'])

/-- What stands between the quotation marks of a string. -/
inductive StringBody : List Char → Prop
  | nil : StringBody []
  | plain {c : Char} {rest : List Char} : c ≠ '"' → c ≠ '\\' → 0x20 ≤ c.toNat → StringBody rest →
      StringBody (c :: rest)
  | escape {c : Char} {rest : List Char} : c ∈ ['"', '\\', '/', 'b', 'f', 'n', 'r', 't'] → StringBody rest →
      StringBody ('\\' :: c :: rest)
  | unicode {hex rest : List Char} : hex.length = 4 → (∀ c ∈ hex, c ∈ "0123456789abcdefABCDEF".toList) →
      StringBody rest → StringBody ('\\' :: 'u' :: (hex ++ rest))

/-- A run of decimal digits. -/
def Digits (t : List Char) : Prop := t ≠ [] ∧ ∀ c ∈ t, c.isDigit = true

/-- A number in its parts: sign, integer, fraction, and exponent with its letter and sign. -/
structure Numeral where
  negative : Bool
  whole : List Char
  fraction : Option (List Char)
  exponent : Option (Char × Option Char × List Char)
  wholeDigits : Digits whole
  noLeadingZero : whole.head? = some '0' → whole = ['0']
  fractionDigits : ∀ digits ∈ fraction, Digits digits
  exponentForm : ∀ part ∈ exponent, (part.1 = 'e' ∨ part.1 = 'E') ∧
    (∀ sign ∈ part.2.1, sign = '+' ∨ sign = '-') ∧ Digits part.2.2

def Numeral.text (n : Numeral) : List Char :=
  (if n.negative then ['-'] else []) ++ n.whole ++ (n.fraction.elim [] fun digits => '.' :: digits) ++
    n.exponent.elim [] fun part => part.1 :: (part.2.1.toList ++ part.2.2)
def Numeral.value (n : Numeral) : Rat :=
  (if n.negative then -1 else 1) *
    (decimalValue n.whole + n.fraction.elim 0 fun digits => (decimalValue digits : Rat) / 10 ^ digits.length) *
    n.exponent.elim 1 fun part =>
      10 ^ (if part.2.1 = some '-' then -(decimalValue part.2.2 : Int) else decimalValue part.2.2)

/-- Items separated by commas. -/
inductive Separated {Item : Type} (IsItem : List Char → Item → Prop) : List Char → List Item → Prop
  | one {t : List Char} {item : Item} : IsItem t item → Separated IsItem t [item]
  | more {t rest : List Char} {item : Item} {others : List Item} : IsItem t item → Separated IsItem rest others →
      Separated IsItem (t ++ ',' :: rest) (item :: others)
inductive Element (Value : List Char → Prop) : List Char → List Char → Prop
  | mk {gap value gap' : List Char} : Gap gap → Value value → Gap gap' → Element Value (gap ++ (value ++ gap')) value
/-- The text of a member, with its name as written and its value. -/
inductive Member (Value : List Char → Prop) : List Char → List Char × List Char → Prop
  | mk {before name afterName beforeValue value afterValue : List Char} : Gap before → StringBody name →
      Gap afterName → Gap beforeValue → Value value → Gap afterValue →
      Member Value (before ++ (quoted name ++ (afterName ++ ':' :: (beforeValue ++ (value ++ afterValue))))) (name, value)

inductive Value : List Char → Prop
  | literal {t : List Char} : t ∈ ["true".toList, "false".toList, "null".toList] → Value t
  | number (n : Numeral) : Value n.text
  | string {body : List Char} : StringBody body → Value (quoted body)
  | emptyArray {gap : List Char} : Gap gap → Value ('[' :: (gap ++ [']']))
  | array {inner : List Char} {elements : List (List Char)} : Separated (Element Value) inner elements →
      Value ('[' :: (inner ++ [']']))
  | emptyObject {gap : List Char} : Gap gap → Value ('{' :: (gap ++ ['}']))
  | object {inner : List Char} {members : List (List Char × List Char)} : Separated (Member Value) inner members →
      Value ('{' :: (inner ++ ['}']))

/-- A JSON text that is an object, with the names and values of its members. -/
inductive ObjectText : List Char → List (List Char × List Char) → Prop
  | empty {gap inner gap' : List Char} : Gap gap → Gap inner → Gap gap' →
      ObjectText (gap ++ '{' :: (inner ++ '}' :: gap')) []
  | members {gap inner gap' : List Char} {members : List (List Char × List Char)} : Gap gap →
      Separated (Member Value) inner members → Gap gap' → ObjectText (gap ++ '{' :: (inner ++ '}' :: gap')) members

/-- A text that begins with anything but whitespace or a brace is not an object. -/
theorem not_objectText {c : Char} {rest : List Char} {members : List (List Char × List Char)}
    (token : isSpace c = false) (other : c ≠ '{') : ¬ ObjectText (c :: rest) members := by
  have refute {gap tail : List Char} (space : Gap gap) (same : c :: rest = gap ++ '{' :: tail) : False := by
    cases gap with
    | nil => exact other (List.cons.inj same).1
    | cons d gap =>
      have white := space d (by simp)
      rw [← (List.cons.inj same).1, token] at white
      cases white
  intro object
  generalize whole : c :: rest = text at object
  cases object with
  | empty space _ _ => exact refute space whole
  | members space _ _ => exact refute space whole

theorem digits_decimal (n : Nat) : Digits (decimal n) := ⟨decimal_ne_nil n, isDigit_decimal n⟩

theorem head_decimal (n : Nat) (zero : (decimal n).head? = some '0') : decimal n = ['0'] := by
  have positive (n : Nat) (more : 0 < n) : (Nat.toDigits 10 n).head? ≠ some '0' := by
    induction n using Nat.strongRecOn with
    | ind n ih =>
      by_cases small : n < 10
      · rw [Nat.toDigits_of_lt_base small]
        revert more
        exact (by decide : ∀ n < 10, 0 < n → [Nat.digitChar n].head? ≠ some '0') n small
      · rw [Nat.toDigits_of_base_le (by decide) (by omega), List.head?_append_of_ne_nil _ Nat.toDigits_ne_nil]
        exact ih (n / 10) (by omega) (by omega)
  rcases Nat.eq_zero_or_pos n with rfl | more
  · rfl
  · exact absurd zero (positive n more)

theorem digitChar_of_isDigit {c : Char} (digit : c.isDigit = true) : Nat.digitChar (c.toNat - 48) = c := by
  obtain ⟨low, high⟩ := Char.isDigit_iff_toNat.mp digit
  have digits : ∀ n < 10, Nat.digitChar n = Char.ofNat (48 + n) := by decide
  have code : 48 + (c.toNat - 48) = c.toNat := Nat.add_sub_cancel' low
  have small : c.toNat - 48 < 10 := Nat.sub_lt_left_of_lt_add low (Nat.lt_succ_of_le high)
  rw [digits _ small, code, Char.ofNat_toNat]

/-- Digits without a leading zero are the decimal of the number they spell. -/
theorem decimal_decimalValue {digits : List Char} (run : Digits digits)
    (lead : digits.head? = some '0' → digits = ['0']) : decimal (decimalValue digits) = digits := by
  induction digits using List.reverseRecOn with
  | nil => exact absurd rfl run.1
  | append_singleton front c ih =>
    have digit : c.isDigit = true := run.2 c (by simp)
    have small : c.toNat - 48 < 10 := by
      have range := (Char.isDigit_iff_toNat.mp digit).2
      exact Nat.lt_succ_of_le (Nat.sub_le_sub_right range 48)
    have value : decimalValue (front ++ [c]) = 10 * decimalValue front + (c.toNat - 48) := by
      rw [decimalValue, Nat.ofDigitChars_append, Nat.ofDigitChars_cons, Nat.ofDigitChars_nil]
      rfl
    by_cases alone : front = []
    · subst alone
      have none : decimalValue [] = 0 := rfl
      rw [value, none, Nat.mul_zero, Nat.zero_add, decimal, Nat.toDigits_of_lt_base small, digitChar_of_isDigit digit]
      rfl
    · have starts : (front ++ [c]).head? = front.head? := List.head?_append_of_ne_nil _ alone
      have nonzero : front.head? ≠ some '0' := by
        intro zero
        have one := congrArg List.length (lead (starts.trans zero))
        simp [alone] at one
      have back := ih ⟨alone, fun d member => run.2 d (by simp [member])⟩ fun zero => absurd zero nonzero
      have positive : 0 < decimalValue front := by
        apply Nat.pos_of_ne_zero
        intro zero
        rw [zero] at back
        exact nonzero (by rw [← back]; rfl)
      have quotient : (10 * decimalValue front + (c.toNat - 48)) / 10 = decimalValue front := by omega
      have remainder : (10 * decimalValue front + (c.toNat - 48)) % 10 = c.toNat - 48 := by omega
      rw [value, decimal, Nat.toDigits_of_base_le (by decide) (by omega), quotient, remainder,
        digitChar_of_isDigit digit]
      exact congrArg (· ++ [c]) back

/-- Digits that are not the decimal of a number do not spell it, unless they begin with a zero. -/
theorem decimalValue_ne {digits : List Char} {n : Nat} (run : Digits digits) (lead : digits.head? ≠ some '0')
    (differ : digits ≠ decimal n) : decimalValue digits ≠ n := by
  intro value
  rw [← value, decimal_decimalValue run fun zero => absurd zero lead] at differ
  exact differ rfl

/-- A natural number in decimal. -/
def Numeral.ofNat (n : Nat) : Numeral where
  negative := false
  whole := decimal n
  fraction := none
  exponent := none
  wholeDigits := digits_decimal n
  noLeadingZero := head_decimal n
  fractionDigits := by simp
  exponentForm := by simp

@[simp] theorem Numeral.text_ofNat (n : Nat) : (Numeral.ofNat n).text = decimal n := by
  simp [Numeral.text, Numeral.ofNat]

/-- A text without quotation marks. -/
def Plain (t : List Char) : Prop := ∀ c ∈ t, c ≠ '"'
/-- A name that its quoted form is searched by: plain, and not begun by what follows a name. -/
structure Searchable (name : List Char) : Prop where
  plain : Plain name
  starts : ∃ c rest, name = c :: rest ∧ isSpace c = false ∧ c ≠ ':'

theorem Gap.plain {gap : List Char} (space : Gap gap) : Plain gap := by
  rintro c member rfl
  exact absurd (space _ member) (by decide)
theorem Plain.append {first second : List Char} (plain : Plain first) (plain' : Plain second) :
    Plain (first ++ second) := by
  intro c member
  rcases List.mem_append.mp member with left | right
  · exact plain c left
  · exact plain' c right

/-- A plain name ends at the quotation mark. -/
theorem plain_name_eq {name other rest : List Char} (plain : Plain name) (plain' : Plain other)
    (occurs : name ++ ['"'] <+: other ++ '"' :: rest) : name = other := by
  obtain ⟨after, same⟩ := occurs
  have ends (t after : List Char) (plain : Plain t) : (t ++ '"' :: after).takeWhile (· != '"') = t :=
    takeWhile_run (fun c member => by simpa using plain c member) (by simp)
  rw [List.append_assoc, List.singleton_append] at same
  rw [← ends name after plain, same, ends other rest plain']

theorem find_past_separator (name : List Char) {c : Char} (separator : c ≠ '"') (rest : List Char) :
    find (quoted name) (c :: rest) = find (quoted name) rest := by
  apply find_miss
  intro occurs
  exact separator (List.cons_prefix_cons.mp occurs).1.symm

/-- A search for a name passes over another name and what follows it. -/
theorem find_past_name {name other behind : List Char} (sought : Searchable name) (different : other ≠ name)
    (plainName : Plain other) (follows : ∀ c ∈ behind.head?, isSpace c = true ∨ c = ':') (present : behind ≠ [])
    (plainBehind : Plain behind) (rest : List Char) :
    find (quoted name) (quoted other ++ (behind ++ rest)) = find (quoted name) rest := by
  obtain ⟨plain, c, more, shape, token, noColon⟩ := sought
  have opening : ¬ quoted name <+: '"' :: (other ++ '"' :: (behind ++ rest)) := by
    intro occurs
    exact different (plain_name_eq plain plainName (List.cons_prefix_cons.mp occurs).2).symm
  have closing : ¬ quoted name <+: '"' :: (behind ++ rest) := by
    intro occurs
    have inner := (List.cons_prefix_cons.mp occurs).2
    cases behind with
    | nil => exact present rfl
    | cons d behind =>
      rw [shape, List.cons_append, List.cons_append, List.cons_prefix_cons] at inner
      rcases follows d (by simp) with white | colon
      · rw [inner.1, white] at token
        cases token
      · exact noColon (inner.1.trans colon)
  calc find (quoted name) (quoted other ++ (behind ++ rest))
      = find (quoted name) ('"' :: (other ++ '"' :: (behind ++ rest))) := by simp [quoted]
    _ = find (quoted name) (other ++ '"' :: (behind ++ rest)) := find_miss opening
    _ = find (quoted name) ('"' :: (behind ++ rest)) := find_skip _ _ _ plainName
    _ = find (quoted name) (behind ++ rest) := find_miss closing
    _ = find (quoted name) rest := find_skip _ _ _ plainBehind

/-- A search for a name passes over members of other names. -/
theorem find_other_member {V : List Char → Prop} {name t : List Char} {item : List Char × List Char}
    (sought : Searchable name) (member : Member V t item) (different : item.1 ≠ name) (plainName : Plain item.1)
    (plainValue : Plain item.2) (rest : List Char) : find (quoted name) (t ++ rest) = find (quoted name) rest := by
  cases member with
  | @mk before other afterName beforeValue value afterValue lead _ named valued _ trail =>
    have behind : Plain (afterName ++ ':' :: (beforeValue ++ (value ++ afterValue))) := by
      refine named.plain.append fun d within => ?_
      rcases List.mem_cons.mp within with rfl | within
      · decide
      · exact (valued.plain.append (plainValue.append trail.plain)) d within
    have follows : ∀ c ∈ (afterName ++ ':' :: (beforeValue ++ (value ++ afterValue))).head?,
        isSpace c = true ∨ c = ':' := by
      intro c first
      cases afterName with
      | nil => exact Or.inr (by simpa using first.symm)
      | cons d afterName => exact Or.inl (named c (by simp at first; simp [first]))
    rw [List.append_assoc, List.append_assoc]
    exact (find_skip _ _ _ lead.plain).trans (find_past_name sought different plainName follows (by simp) behind rest)

/-- What a search for a name finds at the member of that name. -/
structure AtMember (value found name : List Char) (last : Char → Prop) : Prop where
  shape : ∃ afterName beforeValue after,
    found = quoted name ++ (afterName ++ ':' :: (beforeValue ++ (value ++ after))) ∧
    Gap afterName ∧ Gap beforeValue ∧ ∀ c ∈ after.head?, isSpace c = true ∨ last c

theorem find_own_member {V : List Char → Prop} {t : List Char} {item : List Char × List Char} (member : Member V t item)
    (rest : List Char) (last : Char → Prop) (ended : ∀ c ∈ rest.head?, last c) :
    ∃ found, find (quoted item.1) (t ++ rest) = some found ∧ AtMember item.2 found item.1 last := by
  cases member with
  | @mk before name afterName beforeValue value afterValue lead _ named valued _ trail =>
    refine ⟨quoted name ++ (afterName ++ ':' :: (beforeValue ++ (value ++ (afterValue ++ rest)))), ?_,
      afterName, beforeValue, afterValue ++ rest, rfl, named, valued, ?_⟩
    · rw [List.append_assoc]
      refine (find_skip _ _ _ lead.plain).trans ?_
      rw [← quoted, find_here (by simp)]
      simp
    · intro c first
      cases afterValue with
      | nil => exact Or.inr (ended c first)
      | cons d afterValue => exact Or.inl (trail c (by simp at first; simp [first]))

/-- Among members of distinct names, a search for a name finds its member. -/
theorem find_member {V : List Char → Prop} {inner : List Char} {members : List (List Char × List Char)}
    (text : Separated (Member V) inner members) (distinct : (members.map Prod.fst).Nodup)
    (plain : ∀ item ∈ members, Searchable item.1 ∧ Plain item.2) (rest : List Char)
    (ended : ∀ c ∈ rest.head?, c = ',' ∨ c = '}') {item : List Char × List Char} (listed : item ∈ members) :
    ∃ found, find (quoted item.1) (inner ++ rest) = some found ∧
      AtMember item.2 found item.1 fun c => c = ',' ∨ c = '}' := by
  induction text with
  | one member =>
    rw [List.mem_singleton] at listed
    subst listed
    exact find_own_member member rest _ ended
  | @more t inner' head others member _ ih =>
    have comma : ∀ c ∈ (',' :: (inner' ++ rest)).head?, c = ',' ∨ c = '}' := by simp
    rw [List.append_assoc, List.cons_append]
    rcases List.mem_cons.mp listed with rfl | listed
    · exact find_own_member member _ _ comma
    · rw [List.map_cons, List.nodup_cons] at distinct
      have sought := (plain item (List.mem_cons_of_mem _ listed)).1
      have different : head.1 ≠ item.1 := fun same => distinct.1 (same ▸ List.mem_map_of_mem listed)
      have headPlain := plain head (by simp)
      rw [find_other_member sought member different headPlain.1.plain headPlain.2]
      rw [find_past_separator _ (show ',' ≠ '"' by decide)]
      exact ih distinct.2 (fun item' listed' => plain item' (List.mem_cons_of_mem _ listed')) listed

/-- In the text of an object the first occurrence of a quoted name is at the member of that name. -/
theorem find_in_object {js : List Char} {members : List (List Char × List Char)} (object : ObjectText js members)
    (distinct : (members.map Prod.fst).Nodup) (plain : ∀ item ∈ members, Searchable item.1 ∧ Plain item.2)
    {item : List Char × List Char} (listed : item ∈ members) :
    ∃ found, find (quoted item.1) js = some found ∧ AtMember item.2 found item.1 fun c => c = ',' ∨ c = '}' := by
  cases object with
  | empty => cases listed
  | @members gap inner gap' _ space text space' =>
    have opening : find (quoted item.1) (gap ++ '{' :: (inner ++ '}' :: gap')) =
        find (quoted item.1) (inner ++ '}' :: gap') := by
      exact (find_skip _ _ _ space.plain).trans (find_past_separator _ (by decide) _)
    rw [opening]
    exact find_member text distinct plain _ (by simp) listed

end Eahcm.JsonGrammar
