import Mathlib.Algebra.Ring.Nat
import Mathlib.Data.List.Infix
import Mathlib.Data.List.Perm.Basic
import Mathlib.Logic.Function.Iterate
import Eahcm.Machines

/-!
Reading bytes from a source of words. A tap keeps the bytes of the last word that nobody has
asked for yet; a read is served from them first and draws as many words as it still needs,
and whole words can be drawn past the buffer at any time. Over any sequence of requests each
word goes to one consumer, in order, and no byte is lost or repeated (`serve_ledger`). A tap
with bytes left is told apart from an empty one over the same source unless the source
repeats one word for ever (`indistinguishable_from_empty_iff`).
-/
namespace Eahcm.WordTaps
open Eahcm.Machines
universe u v w
variable {Source : Type u} {Word : Type v} {Byte : Type w}

/-- A source of words, each made of the same positive number of bytes. -/
structure WordSource (Source : Type u) (Word : Type v) (Byte : Type w) where
  draw : Source → Word × Source
  bytes : Word → List Byte
  width : Nat
  width_pos : 0 < width
  bytes_length : ∀ word, (bytes word).length = width

/-- A source and the bytes of a drawn word that are still to be delivered. -/
structure Tap (Source : Type u) (Byte : Type w) where
  source : Source
  pending : List Byte

inductive Request
  | read (count : Nat)
  | word
deriving DecidableEq
inductive Answer (Word : Type v) (Byte : Type w)
  | bytes (delivered : List Byte)
  | word (handed : Word)

namespace WordSource
variable (ws : WordSource Source Word Byte)

/-- The source once `count` words are drawn. -/
def advance (count : Nat) (s : Source) : Source := (fun s => (ws.draw s).2)^[count] s
/-- The word drawn after `index` others. -/
def wordAt (s : Source) (index : Nat) : Word := (ws.draw (ws.advance index s)).1
/-- The bytes of the next `count` words. -/
def supply (count : Nat) (s : Source) : List Byte := (List.range count).flatMap fun k => ws.bytes (ws.wordAt s k)
/-- How many words a read of `count` bytes draws. -/
def needed (t : Tap Source Byte) (count : Nat) : Nat := (count - t.pending.length + (ws.width - 1)) / ws.width
/-- The undelivered bytes and those of the next words. -/
def available (t : Tap Source Byte) (words : Nat) : List Byte := t.pending ++ ws.supply words t.source

/-- One request: bytes through the buffer, or a word past it. -/
def serve : Request → Tap Source Byte → Answer Word Byte × Tap Source Byte
  | .read count, t =>
    let words := ws.needed t count
    (.bytes ((ws.available t words).take count), ⟨ws.advance words t.source, (ws.available t words).drop count⟩)
  | .word, t => (.word (ws.draw t.source).1, { t with source := (ws.draw t.source).2 })

@[simp] theorem advance_zero (s : Source) : ws.advance 0 s = s := rfl
theorem advance_succ (count : Nat) (s : Source) : ws.advance (count + 1) s = (ws.draw (ws.advance count s)).2 :=
  Function.iterate_succ_apply' _ _ _
theorem advance_add (first second : Nat) (s : Source) :
    ws.advance (first + second) s = ws.advance second (ws.advance first s) := by
  rw [Nat.add_comm]
  exact Function.iterate_add_apply _ _ _ _
theorem wordAt_advance (s : Source) (first index : Nat) :
    ws.wordAt (ws.advance first s) index = ws.wordAt s (first + index) := by
  rw [wordAt, wordAt, advance_add]

@[simp] theorem supply_zero (s : Source) : ws.supply 0 s = [] := rfl
@[simp] theorem length_supply (count : Nat) (s : Source) : (ws.supply count s).length = count * ws.width := by
  simp [supply, ws.bytes_length]
/-- The bytes of words `first` to `first + count`. -/
theorem supply_advance (first count : Nat) (s : Source) :
    ws.supply count (ws.advance first s) =
      (List.range' first count).flatMap fun k => ws.bytes (ws.wordAt s k) := by
  rw [supply, List.range'_eq_map_range, List.flatMap_map]
  simp only [wordAt_advance]
theorem supply_add (first second : Nat) (s : Source) :
    ws.supply (first + second) s = ws.supply first s ++ ws.supply second (ws.advance first s) := by
  rw [supply_advance, supply, supply, List.range_eq_range', List.range_eq_range', ← List.range'_append_1]
  simp

@[simp] theorem length_available (t : Tap Source Byte) (words : Nat) :
    (ws.available t words).length = t.pending.length + words * ws.width := by
  simp [available]
theorem available_succ (t : Tap Source Byte) (words : Nat) :
    ws.available t (words + 1) = ws.available t words ++ ws.bytes (ws.wordAt t.source words) := by
  simp [available, supply, List.range_succ]
/-- The words drawn are enough, and no word is drawn that a smaller number would spare. -/
theorem needed_spec (t : Tap Source Byte) (count : Nat) :
    count ≤ t.pending.length + ws.needed t count * ws.width ∧
      (0 < ws.needed t count → t.pending.length + ws.needed t count * ws.width < count + ws.width) := by
  have positive := ws.width_pos
  have division := Nat.div_add_mod (count - t.pending.length + (ws.width - 1)) ws.width
  have remainder := Nat.mod_lt (count - t.pending.length + (ws.width - 1)) positive
  rw [Nat.mul_comm] at division
  change ws.needed t count * ws.width + _ = _ at division
  refine ⟨by omega, fun some => ?_⟩
  have beyond : ws.width ≤ ws.needed t count * ws.width := Nat.le_mul_of_pos_left _ some
  omega
/-- Only one number of words is enough and not too many. -/
theorem needed_unique (t : Tap Source Byte) (count words : Nat)
    (enough : count ≤ t.pending.length + words * ws.width)
    (spare : 0 < words → t.pending.length + words * ws.width < count + ws.width) : ws.needed t count = words := by
  obtain ⟨enough', spare'⟩ := ws.needed_spec t count
  rcases Nat.lt_trichotomy (ws.needed t count) words with less | same | more
  · have gap : (ws.needed t count + 1) * ws.width ≤ words * ws.width := Nat.mul_le_mul_right _ less
    have := spare (by omega)
    rw [Nat.add_mul] at gap
    omega
  · exact same
  · have gap : (words + 1) * ws.width ≤ ws.needed t count * ws.width := Nat.mul_le_mul_right _ more
    have := spare' (by omega)
    rw [Nat.add_mul] at gap
    omega

/-- A word is at least a byte. -/
theorem needed_le (t : Tap Source Byte) (count : Nat) : ws.needed t count ≤ count := by
  by_contra more
  obtain ⟨_, spare⟩ := ws.needed_spec t count
  have fewer := spare (by omega)
  have words : (count + 1) * ws.width ≤ ws.needed t count * ws.width := Nat.mul_le_mul_right _ (by omega)
  have bytes : count ≤ count * ws.width := Nat.le_mul_of_pos_right count ws.width_pos
  rw [Nat.add_mul] at words
  omega

theorem pending_read_lt (t : Tap Source Byte) (count : Nat) (part : t.pending.length < ws.width) :
    (ws.serve (.read count) t).2.pending.length < ws.width := by
  obtain ⟨enough, spare⟩ := ws.needed_spec t count
  simp only [serve, List.length_drop, length_available]
  rcases Nat.eq_zero_or_pos (ws.needed t count) with none | some
  · rw [none]
    omega
  · have := spare some
    omega

/-- More words than a read needs make no difference to what it delivers. -/
theorem read_delivers (t : Tap Source Byte) {count words : Nat} (enough : ws.needed t count ≤ words) :
    (ws.serve (.read count) t).1 = .bytes ((ws.available t words).take count) := by
  obtain ⟨rest, rfl⟩ := Nat.exists_eq_add_of_le enough
  have size := (ws.needed_spec t count).1
  have more : ws.available t (ws.needed t count + rest) =
      ws.available t (ws.needed t count) ++ ws.supply rest (ws.advance (ws.needed t count) t.source) := by
    rw [available, ws.supply_add, ← List.append_assoc]
    rfl
  rw [more, List.take_append_of_le_length (by rw [length_available]; exact size)]
  rfl

/-- A read of `first + second` bytes is a read of `first` and then of `second`. -/
theorem read_add (t : Tap Source Byte) (first second : Nat) :
    ∃ a b, (ws.serve (.read first) t).1 = .bytes a ∧
      (ws.serve (.read second) (ws.serve (.read first) t).2).1 = .bytes b ∧
      ws.serve (.read (first + second)) t =
        (.bytes (a ++ b), (ws.serve (.read second) (ws.serve (.read first) t).2).2) := by
  obtain ⟨enough, spare⟩ := ws.needed_spec t first
  set m := ws.needed t first with mIs
  set t' := (ws.serve (.read first) t).2 with t'Is
  have source' : t'.source = ws.advance m t.source := rfl
  have pending' : t'.pending = (ws.available t m).drop first := rfl
  obtain ⟨enough', spare'⟩ := ws.needed_spec t' second
  set k := ws.needed t' second with kIs
  have left : t'.pending.length = t.pending.length + m * ws.width - first := by simp [pending']
  have total : ws.needed t (first + second) = m + k := by
    apply ws.needed_unique
    · rw [Nat.add_mul]
      omega
    · intro some
      rw [Nat.add_mul]
      rcases Nat.eq_zero_or_pos k with none | more
      · rw [none] at some ⊢
        have := spare (by omega)
        omega
      · have := spare' more
        omega
  have all : ws.available t (m + k) = (ws.available t m).take first ++ ws.available t' k := by
    simp only [available, pending', source', ws.supply_add, ← List.append_assoc]
    rw [List.take_append_drop]
  have exactly : ((ws.available t m).take first).length = first := by simp; omega
  refine ⟨_, _, rfl, rfl, ?_⟩
  simp only [serve, total, all, ← kIs, Prod.mk.injEq, Answer.bytes.injEq, Tap.mk.injEq]
  refine ⟨?_, ?_, ?_⟩
  · rw [List.take_append, exactly, Nat.add_sub_cancel_left, List.take_of_length_le (by omega)]
  · rw [source', ws.advance_add]
  · rw [List.drop_append, exactly, Nat.add_sub_cancel_left, List.drop_of_length_le (by omega), List.nil_append]

/-! ## The ledger of a run -/

/-- The words handed out whole. -/
def handed (answers : List (Answer Word Byte)) : List Word :=
  answers.filterMap fun | .word given => some given | .bytes _ => none
/-- The bytes delivered, in order. -/
def delivered (answers : List (Answer Word Byte)) : List Byte :=
  answers.flatMap fun | .bytes given => given | .word _ => []

@[simp] theorem delivered_nil : delivered ([] : List (Answer Word Byte)) = [] := rfl
theorem delivered_cons (a : Answer Word Byte) (rest : List (Answer Word Byte)) :
    delivered (a :: rest) = delivered [a] ++ delivered rest := by
  simp [delivered]

/-- Reads one after the other are one read of all their bytes. -/
theorem read_sum (counts : List Nat) (t : Tap Source Byte) :
    ws.serve (.read counts.sum) t =
      (.bytes (delivered (answers ws.serve (counts.map .read) t)), after ws.serve (counts.map .read) t) := by
  induction counts generalizing t with
  | nil =>
    have none : ws.needed t 0 = 0 :=
      ws.needed_unique t 0 0 (Nat.zero_le _) (fun impossible => absurd impossible (by decide))
    simp [serve, none, available]
  | cons first rest ih =>
    obtain ⟨a, b, firstRead, restRead, both⟩ := ws.read_add t first rest.sum
    have later := ih (ws.serve (.read first) t).2
    rw [later] at restRead
    rw [List.sum_cons, both, later, List.map_cons, answers_cons, after_cons, delivered_cons, firstRead]
    simp only [Answer.bytes.injEq] at restRead
    rw [restRead]
    simp [delivered]

/-- Where every word drawn so far went: each index to one consumer, in order; those delivered
    as bytes make up the bytes out and the bytes pending, fewer than a word of them. -/
structure Ledger (start : Source) (t : Tap Source Byte) (toWords toBytes : List Nat) (words : List Word)
    (bytes : List Byte) : Prop where
  source : t.source = ws.advance (toWords.length + toBytes.length) start
  each : (toWords ++ toBytes).Perm (List.range (toWords.length + toBytes.length))
  wordsOrdered : toWords.Pairwise (· < ·)
  bytesOrdered : toBytes.Pairwise (· < ·)
  handedOut : words = toWords.map (ws.wordAt start)
  deliveredOut : bytes ++ t.pending = toBytes.flatMap fun k => ws.bytes (ws.wordAt start k)
  part : t.pending.length < ws.width

theorem ledger_start (start : Source) : ws.Ledger start ⟨start, []⟩ [] [] [] [] where
  source := rfl
  each := by simp
  wordsOrdered := List.Pairwise.nil
  bytesOrdered := List.Pairwise.nil
  handedOut := rfl
  deliveredOut := rfl
  part := ws.width_pos

/-- Indices already drawn are below the number of words drawn. -/
theorem Ledger.below {start : Source} {t : Tap Source Byte} {toWords toBytes : List Nat} {words : List Word}
    {bytes : List Byte} (ledger : ws.Ledger start t toWords toBytes words bytes) {k : Nat}
    (drawn : k ∈ toWords ++ toBytes) : k < toWords.length + toBytes.length := by
  simpa using ledger.each.mem_iff.mp drawn

theorem Ledger.word {start : Source} {t : Tap Source Byte} {toWords toBytes : List Nat} {words : List Word}
    {bytes : List Byte} (ledger : ws.Ledger start t toWords toBytes words bytes) :
    ws.Ledger start (ws.serve .word t).2 (toWords ++ [toWords.length + toBytes.length]) toBytes
      (words ++ [(ws.draw t.source).1]) bytes where
  source := by
    simp only [serve, ledger.source, List.length_append, List.length_singleton]
    rw [Nat.add_right_comm, ws.advance_succ]
  each := by
    have swapped : ([toWords.length + toBytes.length] ++ toBytes).Perm (toBytes ++ [toWords.length + toBytes.length]) :=
      List.perm_append_comm
    rw [List.append_assoc]
    refine (swapped.append_left toWords).trans ?_
    rw [← List.append_assoc, List.length_append, List.length_singleton, Nat.add_right_comm, List.range_succ]
    exact ledger.each.append_right _
  wordsOrdered := by
    refine List.pairwise_append.mpr ⟨ledger.wordsOrdered, List.pairwise_singleton _ _, ?_⟩
    intro a member b last
    rw [List.mem_singleton.mp last]
    exact ledger.below ws (List.mem_append_left _ member)
  bytesOrdered := ledger.bytesOrdered
  handedOut := by simp [ledger.handedOut, wordAt, ledger.source]
  deliveredOut := ledger.deliveredOut
  part := ledger.part

theorem Ledger.read {start : Source} {t : Tap Source Byte} {toWords toBytes : List Nat} {words : List Word}
    {bytes : List Byte} (ledger : ws.Ledger start t toWords toBytes words bytes) (count : Nat) :
    ws.Ledger start (ws.serve (.read count) t).2 toWords
      (toBytes ++ List.range' (toWords.length + toBytes.length) (ws.needed t count)) words
      (bytes ++ (ws.available t (ws.needed t count)).take count) where
  source := by
    simp only [serve, ledger.source, List.length_append, List.length_range']
    rw [← Nat.add_assoc, ws.advance_add (toWords.length + toBytes.length)]
  each := by
    rw [← List.append_assoc, List.length_append, List.length_range', ← Nat.add_assoc]
    have split : List.range (toWords.length + toBytes.length + ws.needed t count) =
        List.range (toWords.length + toBytes.length) ++
          List.range' (toWords.length + toBytes.length) (ws.needed t count) := by
      rw [List.range_eq_range', List.range_eq_range', ← List.range'_append_1, Nat.zero_add]
    rw [split]
    exact ledger.each.append_right _
  wordsOrdered := ledger.wordsOrdered
  bytesOrdered := by
    refine List.pairwise_append.mpr ⟨ledger.bytesOrdered, List.pairwise_lt_range', ?_⟩
    intro a member b later
    have := ledger.below ws (List.mem_append_right toWords member)
    have := (List.mem_range'_1.mp later).1
    omega
  handedOut := ledger.handedOut
  deliveredOut := by
    simp only [serve, List.append_assoc, List.take_append_drop, List.flatMap_append]
    rw [← ledger.deliveredOut, available, ledger.source, supply_advance, List.append_assoc]
  part := ws.pending_read_lt t count ledger.part

/-- The words delivered as bytes are no more than the bytes delivered need. -/
theorem Ledger.bytes_count {start : Source} {t : Tap Source Byte} {toWords toBytes : List Nat} {words : List Word}
    {bytes : List Byte} (ledger : ws.Ledger start t toWords toBytes words bytes) :
    toBytes.length = (bytes.length + (ws.width - 1)) / ws.width := by
  have sizes := congrArg List.length ledger.deliveredOut
  have part := ledger.part
  simp [ws.bytes_length] at sizes
  have exactly : bytes.length + (ws.width - 1) = (ws.width - 1 - t.pending.length) + toBytes.length * ws.width := by omega
  rw [exactly, Nat.add_mul_div_right _ _ ws.width_pos, Nat.div_eq_of_lt (by omega), Nat.zero_add]

/-- Any sequence of requests keeps a ledger. -/
theorem serve_ledger (requests : List Request) {start : Source} {t : Tap Source Byte} {toWords toBytes : List Nat}
    {words : List Word} {bytes : List Byte} (ledger : ws.Ledger start t toWords toBytes words bytes) :
    ∃ toWords' toBytes', ws.Ledger start (after ws.serve requests t) toWords' toBytes'
      (words ++ handed (answers ws.serve requests t)) (bytes ++ delivered (answers ws.serve requests t)) := by
  induction requests generalizing t toWords toBytes words bytes with
  | nil => exact ⟨toWords, toBytes, by simpa [handed, delivered] using ledger⟩
  | cons request rest ih =>
    cases request with
    | word =>
      obtain ⟨toWords', toBytes', done⟩ := ih (ledger.word ws)
      exact ⟨toWords', toBytes', by simpa [handed, delivered, serve, List.append_assoc] using done⟩
    | read count =>
      obtain ⟨toWords', toBytes', done⟩ := ih (ledger.read ws count)
      exact ⟨toWords', toBytes', by simpa [handed, delivered, serve, List.append_assoc] using done⟩

/-- One word is handed out for each request of a word. -/
theorem length_handed (requests : List Request) (t : Tap Source Byte) :
    (handed (answers ws.serve requests t)).length = requests.count .word := by
  induction requests generalizing t with
  | nil => rfl
  | cons request rest ih =>
    have tail := ih (ws.serve request t).2
    cases request with
    | word => simpa [handed, serve] using tail
    | read count => simpa [handed, serve] using tail

/-! ## Telling a tap with bytes left from an empty one -/

/-- One of the two sequences continues the other. -/
def Compatible (a b : List Byte) : Prop := a <+: b ∨ b <+: a

theorem Compatible.take_eq {a b : List Byte} (compatible : Compatible a b) {count : Nat} (left : count ≤ a.length)
    (right : count ≤ b.length) : a.take count = b.take count := by
  rcases compatible with ⟨rest, rfl⟩ | ⟨rest, rfl⟩
  · exact (List.take_append_of_le_length left).symm
  · exact List.take_append_of_le_length right
theorem Compatible.drop {a b : List Byte} (compatible : Compatible a b) (count : Nat) :
    Compatible (a.drop count) (b.drop count) :=
  compatible.imp (List.IsPrefix.drop · count) (List.IsPrefix.drop · count)

/-- The bytes of one word, repeated. -/
def laps (word : Word) (count : Nat) : List Byte := (List.replicate count (ws.bytes word)).flatten

theorem laps_add (word : Word) (first second : Nat) :
    ws.laps word (first + second) = ws.laps word first ++ ws.laps word second := by
  simp [laps, ← List.replicate_append_replicate]
theorem supply_constant {s : Source} {word : Word} (constant : ∀ k, ws.wordAt s k = word) (count : Nat) :
    ws.supply count s = ws.laps word count := by
  simp [supply, laps, constant, List.flatMap_def]

/-- Two taps over sources that repeat one word, with the same bytes to come. -/
def SameFlow (word : Word) (t t' : Tap Source Byte) : Prop :=
  (∀ k, ws.wordAt t.source k = word) ∧ (∀ k, ws.wordAt t'.source k = word) ∧
    ∀ i j, Compatible (t.pending ++ ws.laps word i) (t'.pending ++ ws.laps word j)

theorem available_flow {t : Tap Source Byte} {word : Word} (constant : ∀ k, ws.wordAt t.source k = word) (count i : Nat) :
    (ws.serve (.read count) t).2.pending ++ ws.laps word i =
      (t.pending ++ ws.laps word (ws.needed t count + i)).drop count := by
  have enough := (ws.needed_spec t count).1
  have whole : (t.pending ++ ws.laps word (ws.needed t count)).length =
      t.pending.length + ws.needed t count * ws.width := by
    rw [← ws.supply_constant constant, List.length_append, length_supply]
  rw [ws.laps_add, ← List.append_assoc, List.drop_append_of_le_length (by omega)]
  simp [serve, available, ws.supply_constant constant]

theorem sameFlow_simulates (word : Word) : Simulates (ws.SameFlow word) id id ws.serve ws.serve := by
  rintro request t t' ⟨constant, constant', compatible⟩
  have later (k count : Nat) : ws.wordAt (ws.advance count t.source) k = word := by rw [wordAt_advance, constant]
  have later' (k count : Nat) : ws.wordAt (ws.advance count t'.source) k = word := by rw [wordAt_advance, constant']
  cases request with
  | word =>
    refine ⟨congrArg Answer.word ((constant 0).trans (constant' 0).symm), ?_, ?_, compatible⟩
    · intro k; exact later k 1
    · intro k; exact later' k 1
  | read count =>
    refine ⟨congrArg Answer.bytes ?_, fun k => later k _, fun k => later' k _, fun i j => ?_⟩
    · have enough := (ws.needed_spec t count).1
      have enough' := (ws.needed_spec t' count).1
      have together := compatible (ws.needed t count) (ws.needed t' count)
      simp only [available]
      rw [ws.supply_constant constant, ws.supply_constant constant']
      rw [← ws.supply_constant constant, ← ws.supply_constant constant'] at together ⊢
      exact together.take_eq (by simpa using enough) (by simpa using enough')
    · rw [id, ws.available_flow constant, ws.available_flow constant']
      exact (compatible _ _).drop count

/-- Words drawn one after the other. -/
theorem answers_words (count : Nat) (t : Tap Source Byte) :
    answers ws.serve (List.replicate count .word) t = (List.range count).map fun k => .word (ws.wordAt t.source k) := by
  induction count generalizing t with
  | zero => rfl
  | succ count ih =>
    rw [List.replicate_succ, answers_cons, ih, List.range_succ_eq_map, List.map_cons, List.map_map]
    refine congrArg₂ List.cons rfl (List.map_congr_left fun k _ => congrArg Answer.word ?_)
    exact (ws.wordAt_advance t.source 1 k).trans (by rw [Nat.add_comm])

theorem commutes_laps {left : List Byte} {word : Word} (commutes : left ++ ws.bytes word = ws.bytes word ++ left)
    (count : Nat) : left ++ ws.laps word count = ws.laps word count ++ left := by
  induction count with
  | zero => simp [laps]
  | succ count ih =>
    have one : ws.laps word 1 = ws.bytes word := by simp [laps]
    rw [ws.laps_add, one, ← List.append_assoc, ih, List.append_assoc, commutes, List.append_assoc]

/-- Bytes left over from a word are told apart from none, unless the source repeats one word
    for ever and the bytes left continue its laps. -/
theorem indistinguishable_from_empty_iff (s : Source) (left : List Byte) (some : left ≠ [])
    (part : left.length ≤ ws.width) :
    Indistinguishable ws.serve ⟨s, left⟩ ⟨s, []⟩ ↔
      (∀ k, ws.wordAt s k = ws.wordAt s 0) ∧
        left ++ ws.bytes (ws.wordAt s 0) = ws.bytes (ws.wordAt s 0) ++ left := by
  have positive : 0 < left.length := List.length_pos_iff.mpr some
  have width := ws.bytes_length (ws.wordAt s 0)
  constructor
  · intro same
    have fromLeft : ws.needed ⟨s, left⟩ left.length = 0 := ws.needed_unique _ _ _ (by simp) (by simp)
    have fromWord : ws.needed ⟨s, []⟩ left.length = 1 :=
      ws.needed_unique _ _ _ (by simpa using part) (by simp; omega)
    -- reading what is left costs the empty tap one word, so every word after it comes one early
    have shifted (k : Nat) : ws.wordAt s k = ws.wordAt s (k + 1) := by
      have both := same (.read left.length :: List.replicate (k + 1) .word)
      simp only [answers_cons, answers_words, serve, fromLeft, fromWord, List.cons.injEq] at both
      have last := congrArg (·[k]?) both.2
      simpa [ws.wordAt_advance, Nat.add_comm] using last
    have constant (k : Nat) : ws.wordAt s k = ws.wordAt s 0 := by
      induction k with
      | zero => rfl
      | succ k ih => rw [← shifted k, ih]
    refine ⟨constant, ?_⟩
    have start : left = (ws.bytes (ws.wordAt s 0)).take left.length := by
      have both := same [.read left.length]
      simp only [answers_cons, answers_nil, serve, fromLeft, fromWord, available, supply, List.cons.injEq,
        Answer.bytes.injEq] at both
      simpa using both.1
    have fromLeft' : ws.needed ⟨s, left⟩ (left.length + ws.width) = 1 :=
      ws.needed_unique _ _ _ (by simp) (by simp; omega)
    have fromWord' : ws.needed ⟨s, []⟩ (left.length + ws.width) = 2 :=
      ws.needed_unique _ _ _ (by simp; omega) (by simp; omega)
    have both := same [.read (left.length + ws.width)]
    simp only [answers_cons, answers_nil, serve, fromLeft', fromWord', available, ws.supply_constant constant,
      List.cons.injEq, Answer.bytes.injEq] at both
    have lap : ws.laps (ws.wordAt s 0) 1 = ws.bytes (ws.wordAt s 0) := by simp [laps]
    have laps : ws.laps (ws.wordAt s 0) 2 = ws.bytes (ws.wordAt s 0) ++ ws.bytes (ws.wordAt s 0) := by
      rw [ws.laps_add (ws.wordAt s 0) 1 1, lap]
    rw [lap, laps, List.take_of_length_le (by simp [width]), List.nil_append, List.take_append, width,
      List.take_of_length_le (by omega), Nat.add_sub_cancel, ← start] at both
    exact both.1
  · rintro ⟨constant, commutes⟩
    refine indistinguishable_of_bisimulation (ws.sameFlow_simulates (ws.wordAt s 0)) ⟨constant, constant, fun i j => ?_⟩
    have more : left ++ ws.laps (ws.wordAt s 0) i <+: left ++ ws.laps (ws.wordAt s 0) (i + j) :=
      (List.prefix_append_right_inj left).mpr ⟨_, (ws.laps_add _ i j).symm⟩
    have other : ws.laps (ws.wordAt s 0) j <+: left ++ ws.laps (ws.wordAt s 0) (i + j) := by
      rw [ws.commutes_laps commutes, Nat.add_comm i j, ws.laps_add, List.append_assoc]
      exact List.prefix_append _ _
    exact List.prefix_or_prefix_of_prefix more (by simpa using other)

/-! ## What a request moves -/

/-- The bytes that an answer hands out, those of a whole word among them. -/
def flow : Answer Word Byte → List Byte
  | .bytes given => given
  | .word given => ws.bytes given

/-- What a request hands out and leaves is what was left before and the words that it draws. -/
theorem flow_serve (request : Request) (t : Tap Source Byte) :
    ∃ words, (ws.flow (ws.serve request t).1 ++ (ws.serve request t).2.pending).Perm (ws.available t words) ∧
      (ws.serve request t).2.source = ws.advance words t.source := by
  cases request with
  | read count =>
    refine ⟨ws.needed t count, ?_, rfl⟩
    simp only [serve, flow, List.take_append_drop]
    exact List.Perm.refl _
  | word =>
    refine ⟨1, ?_, rfl⟩
    have one : ws.available t 1 = t.pending ++ ws.bytes (ws.draw t.source).1 := by
      rw [ws.available_succ t 0, available, supply_zero, List.append_nil]
      rfl
    rw [one]
    exact List.perm_append_comm

/-- What a request leaves is the end of what was left before, or of a word that it draws. -/
theorem pending_serve (request : Request) (t : Tap Source Byte) :
    (ws.serve request t).2.pending <:+ t.pending ∨
      ∃ k, (ws.serve request t).2.pending <:+ ws.bytes (ws.wordAt t.source k) := by
  cases request with
  | word => exact Or.inl (List.suffix_refl _)
  | read count =>
    obtain ⟨_, spare⟩ := ws.needed_spec t count
    simp only [serve]
    rcases words : ws.needed t count with _ | n
    · left
      rw [available, supply_zero, List.append_nil]
      exact List.drop_suffix count t.pending
    · right
      have fewer := spare (by omega)
      rw [words, Nat.add_mul] at fewer
      have beyond : (ws.available t n).length ≤ count := by
        rw [length_available]
        omega
      rw [ws.available_succ, List.drop_append, List.drop_of_length_le beyond, List.nil_append]
      exact ⟨n, List.drop_suffix _ _⟩

section
variable {Source' Word' Byte' : Type*}

/-- A tap over the image of a source. -/
def mapTap (source : Source → Source') (byte : Byte → Byte') (t : Tap Source Byte) : Tap Source' Byte' :=
  ⟨source t.source, t.pending.map byte⟩
def mapAnswer (word : Word → Word') (byte : Byte → Byte') : Answer Word Byte → Answer Word' Byte'
  | .bytes given => .bytes (given.map byte)
  | .word given => .word (word given)

/-- The second source draws what the first one draws, seen through functions. -/
structure Image (ws : WordSource Source Word Byte) (ws' : WordSource Source' Word' Byte') (source : Source → Source')
    (word : Word → Word') (byte : Byte → Byte') : Prop where
  draw : ∀ s, ws'.draw (source s) = (word (ws.draw s).1, source (ws.draw s).2)
  bytes : ∀ w, ws'.bytes (word w) = (ws.bytes w).map byte
  width : ws'.width = ws.width

variable {ws} {ws' : WordSource Source' Word' Byte'} {source : Source → Source'} {word : Word → Word'}
  {byte : Byte → Byte'}

theorem Image.advance (image : Image ws ws' source word byte) (count : Nat) (s : Source) :
    ws'.advance count (source s) = source (ws.advance count s) := by
  induction count with
  | zero => rfl
  | succ count ih => rw [ws'.advance_succ, ws.advance_succ, ih, image.draw]
theorem Image.supply (image : Image ws ws' source word byte) (count : Nat) (s : Source) :
    ws'.supply count (source s) = (ws.supply count s).map byte := by
  have each (k : Nat) : ws'.bytes (ws'.wordAt (source s) k) = (ws.bytes (ws.wordAt s k)).map byte := by
    rw [wordAt, wordAt, image.advance, image.draw, image.bytes]
  simp only [WordSource.supply, each, List.map_flatMap]

/-- Requests to the image of a tap are answered by images. -/
theorem Image.serve (image : Image ws ws' source word byte) (request : Request) (t : Tap Source Byte) :
    ws'.serve request (mapTap source byte t) =
      (mapAnswer word byte (ws.serve request t).1, mapTap source byte (ws.serve request t).2) := by
  cases request with
  | word => simp only [WordSource.serve, mapTap, image.draw, mapAnswer]
  | read count =>
    have words : ws'.needed (mapTap source byte t) count = ws.needed t count := by
      simp only [needed, mapTap, List.length_map, image.width]
    have flow : ws'.available (mapTap source byte t) (ws.needed t count) =
        (ws.available t (ws.needed t count)).map byte := by
      simp only [available, mapTap, image.supply, List.map_append]
    simp only [WordSource.serve, words, flow, mapAnswer, List.map_take]
    simp only [mapTap, image.advance, List.map_drop]
end

end WordSource
end Eahcm.WordTaps
