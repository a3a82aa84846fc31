import Mathlib.Data.List.Infix
import Mathlib.Logic.Basic

/-!
Searching and reading texts: the first occurrence of a pattern, the characters skipped before
it, and runs of decimal digits.
-/
namespace Eahcm.Texts
universe u
variable {α : Type u} [DecidableEq α]

/-- A sequence from the first occurrence of a pattern on. -/
def find (pattern : List α) : List α → Option (List α)
  | [] => if pattern = [] then some [] else none
  | c :: rest => if pattern <+: c :: rest then some (c :: rest) else find pattern rest

/-- `found` is `text` from the first occurrence of `pattern` on. -/
structure FirstAt (pattern text found : List α) : Prop where
  occurs : pattern <+: found
  earliest : ∃ before, text = before ++ found ∧ ∀ i < before.length, ¬ pattern <+: text.drop i

theorem find_here {pattern text : List α} (occurs : pattern <+: text) : find pattern text = some text := by
  cases text with
  | nil => rw [List.prefix_nil.mp occurs, find, if_pos rfl]
  | cons c rest => rw [find, if_pos occurs]

theorem find_miss {pattern : List α} {c : α} {rest : List α} (absent : ¬ pattern <+: c :: rest) :
    find pattern (c :: rest) = find pattern rest := by
  rw [find, if_neg absent]

/-- Positions where the pattern does not occur are passed over. -/
theorem find_append {pattern before : List α} (found : List α)
    (absent : ∀ i < before.length, ¬ pattern <+: (before ++ found).drop i) :
    find pattern (before ++ found) = find pattern found := by
  induction before with
  | nil => rfl
  | cons c rest ih =>
    have here : ¬ pattern <+: c :: (rest ++ found) := absent 0 (by simp)
    rw [List.cons_append, find_miss here]
    exact ih fun i inside => absent (i + 1) (by simpa using inside)

/-- The search finds the first occurrence. -/
theorem find_eq_some_iff {pattern text found : List α} :
    find pattern text = some found ↔ FirstAt pattern text found := by
  constructor
  · intro result
    induction text with
    | nil =>
      rw [find] at result
      split at result
      · next empty =>
        cases result
        exact ⟨by rw [empty], [], rfl, by simp⟩
      · cases result
    | cons c rest ih =>
      rw [find] at result
      split at result
      · next here =>
        cases result
        exact ⟨here, [], rfl, by simp⟩
      · next absent =>
        obtain ⟨occurs, before, split, none⟩ := ih result
        refine ⟨occurs, c :: before, by rw [split, List.cons_append], fun i inside => ?_⟩
        cases i with
        | zero => exact absent
        | succ i => exact none i (by simpa using inside)
  · rintro ⟨occurs, before, rfl, absent⟩
    rw [find_append found absent, find_here occurs]

omit [DecidableEq α] in
/-- The first occurrence stays the first when more follows. -/
theorem FirstAt.append {pattern text found : List α} (first : FirstAt pattern text found) (rest : List α) :
    FirstAt pattern (text ++ rest) (found ++ rest) := by
  obtain ⟨occurs, before, rfl, absent⟩ := first
  refine ⟨occurs.trans (List.prefix_append _ _), before, List.append_assoc _ _ _, fun i inside sooner => ?_⟩
  -- an occurrence that begins before the first one ends before it does, and so inside the text
  apply absent i inside
  have room : pattern.length ≤ ((before ++ found).drop i).length := by
    have := occurs.length_le
    rw [List.length_drop, List.length_append]
    omega
  rw [List.drop_append_of_le_length (by rw [List.length_append]; omega)] at sooner
  exact List.prefix_of_prefix_length_le sooner (List.prefix_append _ _) room

/-- Characters other than the first of the pattern are passed over. -/
theorem find_skip (first : α) (more : List α) {before : List α} (found : List α) (others : ∀ c ∈ before, c ≠ first) :
    find (first :: more) (before ++ found) = find (first :: more) found := by
  apply find_append
  rintro i inside ⟨rest, occurs⟩
  rw [List.drop_append_of_le_length (Nat.le_of_lt inside), List.drop_eq_getElem_cons inside] at occurs
  exact others _ (List.getElem_mem inside) (List.cons.inj occurs).1.symm

theorem find_singleton (c : α) (before after : List α) (others : ∀ d ∈ before, d ≠ c) :
    find [c] (before ++ c :: after) = some (c :: after) := by
  rw [find_skip c [] (c :: after) others, find_here (by simp)]

omit [DecidableEq α] in
theorem dropWhile_run {p : α → Bool} {run rest : List α} (inside : ∀ c ∈ run, p c = true)
    (ended : ∀ c ∈ rest.head?, p c = false) : (run ++ rest).dropWhile p = rest := by
  rw [List.dropWhile_append_of_pos inside]
  cases rest with
  | nil => rfl
  | cons c rest => simp [ended c (by simp)]
omit [DecidableEq α] in
theorem takeWhile_run {p : α → Bool} {run rest : List α} (inside : ∀ c ∈ run, p c = true)
    (ended : ∀ c ∈ rest.head?, p c = false) : (run ++ rest).takeWhile p = run := by
  rw [List.takeWhile_append_of_pos inside]
  cases rest with
  | nil => simp
  | cons c rest => simp [ended c (by simp)]

/-- The number that a run of decimal digits spells. -/
def decimalValue (digits : List Char) : Nat := Nat.ofDigitChars 10 digits 0
/-- The decimal digits of a number, without leading zeros. -/
def decimal (n : Nat) : List Char := Nat.toDigits 10 n

@[simp] theorem decimalValue_decimal (n : Nat) : decimalValue (decimal n) = n := Nat.ofDigitChars_ten_toDigits
theorem decimal_ne_nil (n : Nat) : decimal n ≠ [] := Nat.toDigits_ne_nil
theorem isDigit_decimal (n : Nat) : ∀ c ∈ decimal n, c.isDigit = true :=
  fun _ member => Nat.isDigit_of_mem_toDigits (by decide) (by decide) member

end Eahcm.Texts
