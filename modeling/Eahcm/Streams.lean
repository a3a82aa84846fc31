import Eahcm.Ciphers

/-!
The keystream of a cipher. Drawing from a cipher is drawing from its tap (`draw_simulates`), so
from any fresh start every word goes to one consumer, in order, and no byte is lost or
repeated (`stream_ledger`).
-/
namespace Eahcm.Streams
open Eahcm.Types Eahcm.States Eahcm.KeySchedule Eahcm.LittleEndian Eahcm.Machines Eahcm.WordTaps Eahcm.Ciphers
open Eahcm.WordTaps.WordSource (handed delivered delivered_cons)
variable {σ : Type}

def tapRequest : Draw → Request
  | .generate count => .read count
  | .fill output => .read output.length
  | .next => .word
def tapResponse : Answer Word64 Byte → Response
  | .bytes output => .bytes output
  | .word word => .word word

/-- The tap is the one the cipher stands for, and its buffer position is in range. -/
structure Stands (c : Cipher) (t : Tap State Byte) : Prop where
  same : t = tap c
  bound : c.bufferPos ≤ 8

theorem draw_simulates : Simulates Stands tapRequest tapResponse draw keystream.serve := by
  rintro call c t ⟨rfl, bound⟩
  cases call with
  | next => exact ⟨rfl, rfl, bound⟩
  | fill output =>
    obtain ⟨out, c', ran, read, bound', _⟩ := generate_reads c output bound
    simp only [draw, ran, respond, tapRequest, read]
    exact ⟨rfl, rfl, bound'⟩
  | generate count =>
    obtain ⟨out, c', ran, read, bound', _⟩ := generate_reads c (List.replicate count 0) bound
    rw [List.length_replicate] at read
    simp only [draw, generateVector, ran, respond, tapRequest, read]
    exact ⟨rfl, rfl, bound'⟩

/-- Drawing keeps the reset point and the key material. -/
theorem draw_seed (call : Draw) {c : Cipher} (bound : c.bufferPos ≤ 8) : SameSeed c (draw call c).2 := by
  cases call with
  | next => exact ⟨rfl, rfl, rfl, rfl⟩
  | fill output =>
    obtain ⟨out, c', ran, _, _, seed⟩ := generate_reads c output bound
    simpa only [draw, ran, respond] using seed
  | generate count =>
    obtain ⟨out, c', ran, _, _, seed⟩ := generate_reads c (List.replicate count 0) bound
    simpa only [draw, generateVector, ran, respond] using seed

/-- Ciphers that nothing was drawn from since they were constructed, reset or reseeded. -/
inductive JustSeeded (hmac : Hmac σ) : Cipher → Prop
  | constructed {key nonce info : Bytes} {st st' : σ} {c : Cipher} :
      construct hmac key nonce info st = (.ok c, st') → JustSeeded hmac c
  | reset (c : Cipher) : JustSeeded hmac (reset c)
  | reseeded {key nonce info : Bytes} {st st' : σ} {c c' : Cipher} :
      reseed hmac key nonce info c st = (.ok (), c', st') → JustSeeded hmac c'

theorem JustSeeded.tap {hmac : Hmac σ} {c : Cipher} (seeded : JustSeeded hmac c) :
    c.bufferPos = 8 ∧ Ciphers.tap c = ⟨c.state, []⟩ := by
  have empty : c.bufferPos = 8 := by
    cases seeded with
    | constructed ran =>
      obtain ⟨_, s, _, rfl⟩ := construct_ok ran
      rfl
    | reset c => rfl
    | reseeded ran =>
      obtain ⟨_, s, _, rfl⟩ := reseed_ok ran
      rfl
  refine ⟨empty, ?_⟩
  rw [Ciphers.tap, List.length_eq_zero_iff.mp (show (pending c).length = 0 by rw [length_pending, empty])]

def nextWords (responses : List Response) : List Word64 :=
  responses.filterMap fun | .word word => some word | _ => none
def generated (responses : List Response) : Bytes :=
  responses.flatMap fun | .bytes output => output | _ => []
def Draw.size : Draw → Nat
  | .generate count => count
  | .fill output => output.length
  | .next => 0
/-- Word `k` of the keystream that starts at a state. -/
def streamWord (start : State) (k : Nat) : Word64 := extract (step^[k + 1] start)

/-- Where each word of a stream went: `toNext` and `toGenerate` are the indices delivered by
    `next` and by `generate`, `c` the cipher before the calls and `c'` after. -/
structure StreamLedger (c c' : Cipher) (draws : List Draw) (responses : List Response) (toNext toGenerate : List Nat) :
    Prop where
  steps : c'.state = step^[toNext.length + toGenerate.length] c.state
  each : (toNext ++ toGenerate).Perm (List.range (toNext.length + toGenerate.length))
  nextOrdered : toNext.Pairwise (· < ·)
  generateOrdered : toGenerate.Pairwise (· < ·)
  words : nextWords responses = toNext.map (streamWord c.state)
  bytes : generated responses ++ c'.buffer.val.drop c'.bufferPos =
    toGenerate.flatMap fun k => toBytes 8 (streamWord c.state k)
  outstanding : (c'.buffer.val.drop c'.bufferPos).length < 8
  bound : c'.bufferPos ≤ 8
  nextCount : toNext.length = draws.count .next
  generateCount : toGenerate.length = ((draws.map Draw.size).sum + 7) / 8
  size : (generated responses).length = (draws.map Draw.size).sum
  noFault : ∀ response ∈ responses, ∀ e, response ≠ .thrown e

theorem nextWords_map (given : List (Answer Word64 Byte)) : nextWords (given.map tapResponse) = handed given := by
  induction given with
  | nil => rfl
  | cons a rest ih => cases a <;> simpa [nextWords, handed, tapResponse] using ih
theorem generated_map (given : List (Answer Word64 Byte)) : generated (given.map tapResponse) = delivered given := by
  induction given with
  | nil => rfl
  | cons a rest ih => cases a <;> simpa [generated, delivered, tapResponse] using ih

theorem count_next (draws : List Draw) : (draws.map tapRequest).count .word = draws.count .next := by
  induction draws with
  | nil => rfl
  | cons call rest ih => cases call <;> simpa [tapRequest] using ih

/-- A run of draws delivers as many bytes as were asked for. -/
theorem length_delivered (draws : List Draw) (t : Tap State Byte) :
    (delivered (answers keystream.serve (draws.map tapRequest) t)).length = (draws.map Draw.size).sum := by
  have read (count : Nat) (t : Tap State Byte) :
      ((keystream.available t (keystream.needed t count)).take count).length = count := by
    have enough := (keystream.needed_spec t count).1
    rw [List.length_take, keystream.length_available]
    omega
  induction draws generalizing t with
  | nil => rfl
  | cons call rest ih =>
    rw [List.map_cons, answers_cons, delivered_cons, List.length_append, ih, List.map_cons, List.sum_cons]
    congr 1
    cases call with
    | next => rfl
    | fill output => simpa [delivered, tapRequest, WordSource.serve, Draw.size] using read output.length t
    | generate count => simpa [delivered, tapRequest, WordSource.serve, Draw.size] using read count t

/-- Every run of draws from a fresh start keeps a ledger. -/
theorem ledger_of_fresh {c : Cipher} (empty : c.bufferPos = 8) (start : tap c = ⟨c.state, []⟩) (draws : List Draw) :
    ∃ toNext toGenerate, StreamLedger c (after draw draws c) draws (answers draw draws c) toNext toGenerate := by
  have stands : Stands c ⟨c.state, []⟩ := ⟨start.symm, by omega⟩
  have same := draw_simulates.answers_eq draws stands
  obtain ⟨tapAfter, bound⟩ := draw_simulates.after_related draws stands
  obtain ⟨toNext, toGenerate, ledger⟩ := keystream.serve_ledger (draws.map tapRequest) (keystream.ledger_start c.state)
  rw [tapAfter, List.nil_append, List.nil_append] at ledger
  have counted := congrArg List.length ledger.handedOut
  have sized := length_delivered draws ⟨c.state, []⟩
  have streams (k : Nat) : keystream.wordAt c.state k = streamWord c.state k := wordAt_keystream c.state k
  refine ⟨toNext, toGenerate, ?_⟩
  constructor
  case steps => exact ledger.source
  case each => exact ledger.each
  case nextOrdered => exact ledger.wordsOrdered
  case generateOrdered => exact ledger.bytesOrdered
  case words =>
    rw [same, nextWords_map, ledger.handedOut]
    exact List.map_congr_left fun k _ => streams k
  case bytes =>
    rw [same, generated_map]
    refine ledger.deliveredOut.trans (List.flatMap_congr fun k _ => ?_)
    rw [streams]
    rfl
  case outstanding => exact ledger.part
  case bound => exact bound
  case nextCount => rw [← count_next, ← keystream.length_handed _ ⟨c.state, []⟩, counted, List.length_map]
  case generateCount => rw [← sized]; exact ledger.bytes_count
  case size => rw [same, generated_map, sized]
  case noFault =>
    intro response listed e thrown
    rw [same] at listed
    obtain ⟨a, _, rfl⟩ := List.mem_map.mp listed
    cases a <;> cases thrown

/-- Requests one after the other deliver the bytes of one request for all of them, and leave
    the same tap. -/
theorem generate_sum {c : Cipher} (bound : c.bufferPos ≤ 8) (counts : List Nat) :
    generated (answers draw (counts.map .generate) c) = generated (answers draw [.generate counts.sum] c) ∧
      tap (after draw (counts.map .generate) c) = tap (after draw [.generate counts.sum] c) := by
  have requests : (counts.map Draw.generate).map tapRequest = counts.map .read := by
    rw [List.map_map]
    rfl
  have parts := draw_simulates.answers_eq (counts.map .generate) ⟨rfl, bound⟩
  have whole := draw_simulates.answers_eq [.generate counts.sum] ⟨rfl, bound⟩
  have partsAfter := (draw_simulates.after_related (counts.map .generate) ⟨rfl, bound⟩).same
  have wholeAfter := (draw_simulates.after_related [.generate counts.sum] ⟨rfl, bound⟩).same
  have sum := keystream.read_sum counts (tap c)
  rw [requests] at parts partsAfter
  refine ⟨?_, ?_⟩
  · rw [parts, whole, generated_map, generated_map]
    simp [tapRequest, sum, delivered]
  · rw [← partsAfter, ← wholeAfter]
    simp [tapRequest, sum]

/-- From any fresh start, the words of the stream each go to one consumer in order, the bytes
    are those of the words, and splitting a request changes nothing. -/
theorem stream_ledger {hmac : Hmac σ} {c : Cipher} (seeded : JustSeeded hmac c) :
    (∀ draws, ∃ toNext toGenerate,
        StreamLedger c (after draw draws c) draws (answers draw draws c) toNext toGenerate) ∧
      ∀ counts : List Nat,
        generated (answers draw (counts.map .generate) c) = generated (answers draw [.generate counts.sum] c) := by
  obtain ⟨empty, start⟩ := seeded.tap
  exact ⟨ledger_of_fresh empty start, fun counts => (generate_sum (by omega) counts).1⟩

/-- The ledger of the cipher of the reference vector. -/
theorem stream_ledger_constructed : ∃ c, construct (pureHmac referenceHmac) [0x42] (List.replicate 12 1) [] () = (.ok c, ()) ∧
    ∃ toNext toGenerate, StreamLedger c (after draw [.generate 3, .next] c) [.generate 3, .next]
      (answers draw [.generate 3, .next] c) toNext toGenerate := by
  have computes := pureHmac_computes referenceHmac
  obtain ⟨⟨⟩, ran⟩ := construct_computes computes (List.replicate 12 1) [] (show [(0x42 : Byte)] ≠ [] by decide) ()
  exact ⟨_, ran, (stream_ledger (.constructed ran)).1 [.generate 3, .next]⟩

end Eahcm.Streams
