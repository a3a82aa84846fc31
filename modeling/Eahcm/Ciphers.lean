import Mathlib.Logic.Basic
import Eahcm.Json
import Eahcm.KeySchedule
import Eahcm.WordTaps

/-!
The `Cipher` class (`cipher.cpp`): a state with its reset point, the bytes of the last word that
`generate` has not delivered yet, and the key material. `generate` drains the buffer, writes
whole words, and buffers what a last word leaves over; it is a read from the tap that the
cipher stands for (`generate_reads`). Before it stand the `while` loops that it is made of, whose body may
fail, cut off after a number of iterations, with their rule: an invariant that the body keeps, and a
variant that it decreases and that the cut-off bounds, give a run without failure that ends because the
condition is false.
-/
namespace Eahcm.Loops
universe u v
variable {ε : Type u} {State : Type v}

/-- `while (cond s) s = body s`, for at most the given number of iterations. -/
def whileLoop (cond : State → Bool) (body : State → Except ε State) : Nat → State → Except ε State
  | 0, s => .ok s
  | fuel + 1, s => if cond s then body s >>= whileLoop cond body fuel else .ok s

theorem whileLoop_false {cond : State → Bool} {body : State → Except ε State} {s : State} (fuel : Nat)
    (stop : cond s = false) : whileLoop cond body fuel s = .ok s := by
  cases fuel with
  | zero => rfl
  | succ fuel => simp [whileLoop, stop]

/-- The rule of loops. The cut-off is at least the variant, so it is never what ends the loop. -/
theorem whileLoop_spec {cond : State → Bool} {body : State → Except ε State} (Inv : State → Prop)
    (variant : State → Nat)
    (bodySpec : ∀ s, Inv s → cond s = true → ∃ s', body s = .ok s' ∧ Inv s' ∧ variant s' < variant s)
    (fuel : Nat) (s : State) (start : Inv s) (enough : variant s ≤ fuel) :
    ∃ s', whileLoop cond body fuel s = .ok s' ∧ Inv s' ∧ cond s' = false := by
  induction fuel generalizing s with
  | zero =>
    cases more : cond s with
    | false => exact ⟨s, rfl, start, more⟩
    | true =>
      obtain ⟨s', _, _, less⟩ := bodySpec s start more
      omega
  | succ fuel ih =>
    cases more : cond s with
    | false => exact ⟨s, whileLoop_false _ more, start, more⟩
    | true =>
      obtain ⟨next, ran, kept, less⟩ := bodySpec s start more
      obtain ⟨last, rest, inv, ended⟩ := ih next kept (by omega)
      refine ⟨last, ?_, inv, ended⟩
      simp only [whileLoop, more, if_true, ran]
      exact rest

end Eahcm.Loops

namespace Eahcm.Ciphers
open Eahcm.Types Eahcm.States Eahcm.KeySchedule Eahcm.Binary Eahcm.Json Eahcm.LittleEndian Eahcm.Loops Eahcm.WordTaps
variable {σ : Type}

abbrev Buffer := { bytes : Bytes // bytes.length = 8 }
def zeroBuffer : Buffer := ⟨List.replicate 8 0, rfl⟩
/-- The buffer once its eight bytes are overwritten with those of a word. -/
def wordBuffer (word : Word64) : Buffer := ⟨toBytes 8 word, length_toBytes 8 word⟩

structure Cipher where
  state : State := {}
  initialState : State := {}
  buffer : Buffer := zeroBuffer
  bufferPos : Nat := 8
  keyMaterial : Bytes := []
  nonceMaterial : Bytes := []
  infoMaterial : Bytes := []
deriving DecidableEq, Repr

def keyEmpty : Fault := .keyError "key must not be empty"

/-- A constructor that throws leaves no object. -/
def construct (hmac : Hmac σ) (key nonce info : Bytes) : Derive σ Cipher := do
  if key.isEmpty then throw keyEmpty
  let state ← deriveState hmac key nonce [] info
  return { state, initialState := state, keyMaterial := key, nonceMaterial := nonce, infoMaterial := info }

def next (c : Cipher) : Word64 × Cipher := (extract (step c.state), { c with state := step c.state })

/-! ## Generating bytes -/

/-- The locals of `generate`. -/
structure Filling where
  cipher : Cipher
  output : Bytes
  pos : Nat

/-- The conditions of the three loops. -/
def draining (g : Filling) : Bool := g.pos < g.output.length && g.cipher.bufferPos < 8
def filling (g : Filling) : Bool := g.pos + 8 ≤ g.output.length
def finishing (g : Filling) : Bool := g.pos < g.output.length

/-- `output[pos++] = buffer_[buffer_pos_++]`. -/
def drainByte (g : Filling) : Except Fault Filling := do
  let b ← readAt g.cipher.buffer.val g.cipher.bufferPos
  let output ← writeAt g.output g.pos b
  return { cipher := { g.cipher with bufferPos := g.cipher.bufferPos + 1 }, output, pos := g.pos + 1 }
/-- The bytes of a word written from a position on. -/
def storeWord (output : Bytes) (pos : Nat) (word : Word64) : Except Fault Bytes :=
  (List.range 8).foldlM (fun output i => writeAt output (pos + i) ((word >>> (i * 8)).setWidth 8)) output
def fillWord (g : Filling) : Except Fault Filling := do
  let output ← storeWord g.output g.pos (next g.cipher).1
  return { cipher := (next g.cipher).2, output, pos := g.pos + 8 }
/-- A word into the buffer. -/
def bufferWord (c : Cipher) : Cipher := { (next c).2 with buffer := wordBuffer (next c).1, bufferPos := 0 }

/-- No loop runs more often than there are bytes to write. -/
def generate (c : Cipher) (output : Bytes) : Except Fault (Bytes × Cipher) := do
  let drained ← whileLoop draining drainByte output.length ⟨c, output, 0⟩
  let filled ← whileLoop filling fillWord output.length drained
  if filled.pos < filled.output.length then
    let last ← whileLoop finishing drainByte output.length { filled with cipher := bufferWord filled.cipher }
    return (last.output, last.cipher)
  else return (filled.output, filled.cipher)
def generateVector (c : Cipher) (count : Nat) : Except Fault (Bytes × Cipher) := generate c (List.replicate count 0)

def reset (c : Cipher) : Cipher := { c with state := c.initialState, bufferPos := 8, buffer := zeroBuffer }

/-- What is left of a cipher once `reseed` has wiped it and taken the new material. -/
def reseedWiped (c : Cipher) (key nonce info : Bytes) : Cipher where
  state := c.state.secureWipe
  initialState := c.initialState.secureWipe
  buffer := zeroBuffer
  bufferPos := c.bufferPos
  keyMaterial := key
  nonceMaterial := nonce
  infoMaterial := info
/-- The outcome, with the cipher and the crypto library as the call leaves them. -/
def reseed (hmac : Hmac σ) (key nonce info : Bytes) (c : Cipher) (st : σ) : Except Fault Unit × Cipher × σ :=
  if key.isEmpty then (.error keyEmpty, c, st)
  else
    match deriveState hmac key nonce [] info st with
    | (.error e, st') => (.error e, reseedWiped c key nonce info, st')
    | (.ok state, st') =>
      (.ok (), { reseedWiped c key nonce info with state := state, initialState := state, bufferPos := 8 }, st')

def exportState (c : Cipher) : Blob := serializeBinary c.state
def exportStateJson (np : NumPunct) (c : Cipher) (pretty : Bool) : Text := serializeJson np c.state pretty
/-- A decoded state in place of the current one, with the buffer emptied. -/
def install (c : Cipher) (s : State) : Cipher := { c with state := s, bufferPos := 8, buffer := zeroBuffer }
def importState (c : Cipher) (data : Blob) : Except Fault Cipher := do return install c (← deserializeBinary data)
def importStateJson (c : Cipher) (json : Text) : Except Fault Cipher := do return install c (← deserializeJson json)

/-- What a move leaves behind, the vectors empty. -/
def movedFrom (c : Cipher) : Cipher where
  state := c.state.secureWipe
  initialState := c.initialState.secureWipe
  buffer := zeroBuffer
  bufferPos := 8
/-- The new cipher and the one it was moved from. -/
def moveConstruct (other : Cipher) : Cipher × Cipher := (other, movedFrom other)
/-- The cipher assigned to and another that it was assigned from. -/
def moveAssign (_ other : Cipher) : Cipher × Cipher := (other, movedFrom other)

/-- The calls that take keystream: `generate` of a vector, `generate` into a span, `next`. -/
inductive Draw
  | generate (count : Nat)
  | fill (output : Bytes)
  | next
deriving DecidableEq

/-- The calls that need nothing but the cipher, an export to JSON with the locale in force. -/
inductive Call
  | draw (call : Draw)
  | reset
  | exportState
  | exportStateJson (np : NumPunct) (pretty : Bool)
  | importState (data : Blob)
  | importStateJson (json : Text)

/-- What a caller gets back. -/
inductive Response
  | bytes (output : Bytes)
  | word (word : Word64)
  | blob (data : Blob)
  | text (json : Text)
  | done
  | thrown (e : Fault)
deriving DecidableEq

def respond {α : Type} (c : Cipher) (view : α → Response) : Except Fault (α × Cipher) → Response × Cipher
  | .ok (result, c') => (view result, c')
  | .error e => (.thrown e, c)
/-- An import decodes before it assigns, so one that throws leaves the cipher as it was. -/
def imported (c : Cipher) : Except Fault Cipher → Response × Cipher
  | .ok c' => (.done, c')
  | .error e => (.thrown e, c)

def draw : Draw → Cipher → Response × Cipher
  | .generate count, c => respond c .bytes (generateVector c count)
  | .fill output, c => respond c .bytes (generate c output)
  | .next, c => (.word (next c).1, (next c).2)
def serve : Call → Cipher → Response × Cipher
  | .draw call, c => draw call c
  | .reset, c => (.done, reset c)
  | .exportState, c => (.blob (exportState c), c)
  | .exportStateJson np pretty, c => (.text (exportStateJson np c pretty), c)
  | .importState data, c => imported c (importState c data)
  | .importStateJson json, c => imported c (importStateJson c json)

/-! ## The tap a cipher stands for -/

/-- Words drawn by steps of the state machine. -/
def keystream : WordSource State Word64 Byte where
  draw s := (extract (step s), step s)
  bytes := toBytes 8
  width := 8
  width_pos := by decide
  bytes_length := length_toBytes 8

/-- The bytes of the last buffered word that are still to be delivered. -/
def pending (c : Cipher) : Bytes := c.buffer.val.drop c.bufferPos
def tap (c : Cipher) : Tap State Byte := ⟨c.state, pending c⟩

@[simp] theorem width_keystream : keystream.width = 8 := rfl
theorem advance_keystream (count : Nat) (s : State) : keystream.advance count s = step^[count] s := rfl
theorem wordAt_keystream (s : State) (index : Nat) : keystream.wordAt s index = extract (step^[index + 1] s) := by
  rw [Function.iterate_succ_apply']
  rfl
theorem length_pending (c : Cipher) : (pending c).length = 8 - c.bufferPos := by
  rw [pending, List.length_drop, c.buffer.property]

/-- A cipher at the start of the keystream of a state. -/
def seededWith (s : State) (key nonce info : Bytes) : Cipher where
  state := s
  initialState := s
  keyMaterial := key
  nonceMaterial := nonce
  infoMaterial := info

theorem construct_run (hmac : Hmac σ) {key : Bytes} (nonce info : Bytes) (present : key ≠ []) (st : σ) :
    construct hmac key nonce info st =
      match deriveState hmac key nonce [] info st with
      | (.error e, st') => (.error e, st')
      | (.ok s, st') => (.ok (seededWith s key nonce info), st') := by
  have nonempty : key.isEmpty = false := by simpa using present
  simp only [construct, nonempty, Bool.false_eq_true, if_false]
  rcases derived : deriveState hmac key nonce [] info st with ⟨e | s, st'⟩
  · exact bind_error derived _
  · exact bind_ok derived _
theorem construct_computes {hmac : Hmac σ} {H : Bytes → Int → Bytes → Digest} (computes : Computes hmac H)
    {key : Bytes} (nonce info : Bytes) (present : key ≠ []) (st : σ) :
    ∃ st', construct hmac key nonce info st =
      (.ok (seededWith (derivedState H key nonce [] info) key nonce info), st') := by
  obtain ⟨st', computed⟩ := deriveState_computes computes key nonce [] info present st
  exact ⟨st', by rw [construct_run hmac nonce info present, computed]⟩
theorem reseed_run (hmac : Hmac σ) {key : Bytes} (nonce info : Bytes) (present : key ≠ []) (c : Cipher) (st : σ) :
    reseed hmac key nonce info c st =
      match deriveState hmac key nonce [] info st with
      | (.error e, st') => (.error e, reseedWiped c key nonce info, st')
      | (.ok s, st') => (.ok (), seededWith s key nonce info, st') := by
  have nonempty : key.isEmpty = false := by simpa using present
  simp only [reseed, nonempty, Bool.false_eq_true, if_false]
  rfl

/-- A seeding that the crypto library still answers. -/
theorem construct_failingFrom (H : Bytes → Int → Bytes → Digest) {count calls : Nat} (before : calls + 4 ≤ count)
    {key : Bytes} (nonce info : Bytes) (present : key ≠ []) : construct (failingFrom count H) key nonce info calls =
      (.ok (seededWith (derivedState H key nonce [] info) key nonce info), calls + 4) := by
  rw [construct_run _ nonce info present, deriveState_run _ _ _ _ _ present, exchanges_failingFrom H before]
  rfl
/-- One that it does not answer any more. -/
theorem reseed_failingFrom (H : Bytes → Int → Bytes → Digest) {count calls : Nat} (after : count ≤ calls)
    {key : Bytes} (nonce info : Bytes) (present : key ≠ []) (c : Cipher) :
    reseed (failingFrom count H) key nonce info c calls = (.error hmacFailed, reseedWiped c key nonce info, calls + 1) := by
  rw [reseed_run _ nonce info present, deriveState_run _ _ _ _ _ present, exchanges_failed H after]

theorem construct_ok {hmac : Hmac σ} {key nonce info : Bytes} {st st' : σ} {c : Cipher}
    (ran : construct hmac key nonce info st = (.ok c, st')) :
    key ≠ [] ∧ ∃ s, deriveState hmac key nonce [] info st = (.ok s, st') ∧ c = seededWith s key nonce info := by
  by_cases present : key = []
  · subst present
    cases ran
  · rw [construct_run hmac nonce info present] at ran
    rcases derived : deriveState hmac key nonce [] info st with ⟨e | s, st''⟩
    · rw [derived] at ran
      cases ran
    · rw [derived] at ran
      cases ran
      exact ⟨present, s, rfl, rfl⟩
theorem reseed_ok {hmac : Hmac σ} {key nonce info : Bytes} {st st' : σ} {c c' : Cipher}
    (ran : reseed hmac key nonce info c st = (.ok (), c', st')) :
    key ≠ [] ∧ ∃ s, deriveState hmac key nonce [] info st = (.ok s, st') ∧ c' = seededWith s key nonce info := by
  by_cases present : key = []
  · subst present
    cases ran
  · rw [reseed_run hmac nonce info present] at ran
    rcases derived : deriveState hmac key nonce [] info st with ⟨e | s, st''⟩
    · rw [derived] at ran
      cases ran
    · rw [derived] at ran
      cases ran
      exact ⟨present, s, rfl, rfl⟩

/-! ## What a generation has done so far -/

/-- The reset point and the key material are the same. -/
structure SameSeed (c c' : Cipher) : Prop where
  initialState : c'.initialState = c.initialState
  keyMaterial : c'.keyMaterial = c.keyMaterial
  nonceMaterial : c'.nonceMaterial = c.nonceMaterial
  infoMaterial : c'.infoMaterial = c.infoMaterial

/-- After so many words, what is written and what is buffered is what was buffered at the start
    and the bytes of those words. -/
structure Progress (c : Cipher) (count words : Nat) (g : Filling) : Prop where
  size : g.output.length = count
  inside : g.pos ≤ count
  bound : g.cipher.bufferPos ≤ 8
  state : g.cipher.state = step^[words] c.state
  flow : g.output.take g.pos ++ pending g.cipher = keystream.available (tap c) words
  seed : SameSeed c g.cipher

theorem take_set_succ (output : Bytes) {pos : Nat} (b : Byte) (inside : pos < output.length) :
    (output.set pos b).take (pos + 1) = output.take pos ++ [b] := by
  have present : pos < (output.set pos b).length := by simpa using inside
  rw [List.take_add_one, List.getElem?_eq_getElem present, List.getElem_set_self, List.take_set_of_le (Nat.le_refl _)]
  rfl

theorem drainByte_progress {c : Cipher} {count words : Nat} {g : Filling} (progress : Progress c count words g)
    (room : g.pos < count) (left : g.cipher.bufferPos < 8) :
    ∃ g', drainByte g = .ok g' ∧ Progress c count words g' ∧ g'.pos = g.pos + 1 ∧
      g'.cipher.bufferPos = g.cipher.bufferPos + 1 := by
  have size := progress.size
  have source : g.cipher.bufferPos < g.cipher.buffer.val.length := by rw [g.cipher.buffer.property]; exact left
  have target : g.pos < g.output.length := by omega
  refine ⟨{ cipher := { g.cipher with bufferPos := g.cipher.bufferPos + 1 },
            output := g.output.set g.pos g.cipher.buffer.val[g.cipher.bufferPos], pos := g.pos + 1 }, ?_, ?_, rfl, rfl⟩
  · simp only [drainByte, readAt_inside source, writeAt_inside _ target]
    rfl
  · obtain ⟨initialState, keyMaterial, nonceMaterial, infoMaterial⟩ := progress.seed
    refine ⟨by simpa using size, room, left, progress.state, ?_,
      ⟨initialState, keyMaterial, nonceMaterial, infoMaterial⟩⟩
    rw [← progress.flow, take_set_succ _ _ target, List.append_assoc]
    simp only [pending, List.drop_eq_getElem_cons source, List.singleton_append]

theorem storeWord_inside (word : Word64) {output : Bytes} {pos : Nat} (inside : pos + 8 ≤ output.length) :
    storeWord output pos word = .ok (output.take pos ++ (toBytes 8 word ++ output.drop (pos + 8))) := by
  have bytes (k : Nat) (inside : pos + k ≤ output.length) :
      (List.range k).foldlM (fun output i => writeAt output (pos + i) ((word >>> (i * 8)).setWidth 8)) output =
        .ok (output.take pos ++ (toBytes k word ++ output.drop (pos + k))) := by
    induction k with
    | zero =>
      simp [toBytes]
      rfl
    | succ k ih =>
      have before : (output.take pos ++ toBytes k word).length = pos + k := by simp; omega
      have here : output.drop (pos + k) = output[pos + k] :: output.drop (pos + k + 1) :=
        List.drop_eq_getElem_cons (by omega)
      rw [List.range_succ, List.foldlM_append, ih (by omega), here]
      simp only [bind, Except.bind, List.foldlM_cons, List.foldlM_nil]
      rw [← List.append_assoc, writeAt_inside _ (by simp; omega)]
      simp only [pure, Except.pure, Except.ok.injEq]
      rw [List.set_append_right _ _ (by omega), before, Nat.sub_self, List.set_cons_zero, toBytes_succ]
      simp [Nat.mul_comm, byteAt, Nat.add_assoc]
  exact bytes 8 inside

theorem fillWord_progress {c : Cipher} {count words : Nat} {g : Filling} (progress : Progress c count words g)
    (room : g.pos + 8 ≤ count) (drained : g.cipher.bufferPos = 8) :
    ∃ g', fillWord g = .ok g' ∧ Progress c count (words + 1) g' ∧ g'.pos = g.pos + 8 ∧ g'.cipher.bufferPos = 8 := by
  have size := progress.size
  have empty : pending g.cipher = [] := List.length_eq_zero_iff.mp (by rw [length_pending, drained])
  have written : g.output.take g.pos = keystream.available (tap c) words := by
    simpa [empty] using progress.flow
  have target : g.pos + 8 ≤ g.output.length := by omega
  have before : (g.output.take g.pos).length = g.pos := by simp; omega
  refine ⟨{ cipher := (next g.cipher).2, pos := g.pos + 8,
            output := g.output.take g.pos ++ (toBytes 8 (next g.cipher).1 ++ g.output.drop (g.pos + 8)) }, ?_, ?_, rfl,
    drained⟩
  · rw [fillWord, storeWord_inside _ target]
    rfl
  · obtain ⟨initialState, keyMaterial, nonceMaterial, infoMaterial⟩ := progress.seed
    refine ⟨?_, room, by simp [next, drained], ?_, ?_, ⟨initialState, keyMaterial, nonceMaterial, infoMaterial⟩⟩
    · simp
      omega
    · simp only [next, progress.state]
      rw [Function.iterate_succ_apply']
    · have word : keystream.bytes (keystream.wordAt c.state words) = toBytes 8 (next g.cipher).1 := by
        rw [wordAt_keystream, Function.iterate_succ_apply', ← progress.state]
        rfl
      have emptied : pending (next g.cipher).2 = [] := empty
      rw [emptied, List.append_nil, keystream.available_succ, ← written]
      rw [← List.append_assoc, List.take_left' (by simp; omega)]
      exact congrArg _ word.symm

theorem bufferWord_progress {c : Cipher} {count words : Nat} {g : Filling} (progress : Progress c count words g)
    (drained : g.cipher.bufferPos = 8) :
    Progress c count (words + 1) { g with cipher := bufferWord g.cipher } := by
  have empty : pending g.cipher = [] := List.length_eq_zero_iff.mp (by rw [length_pending, drained])
  obtain ⟨initialState, keyMaterial, nonceMaterial, infoMaterial⟩ := progress.seed
  refine ⟨progress.size, progress.inside, by simp [bufferWord], ?_, ?_,
    ⟨initialState, keyMaterial, nonceMaterial, infoMaterial⟩⟩
  · simp only [bufferWord, next, progress.state]
    rw [Function.iterate_succ_apply']
  · have word : keystream.bytes (keystream.wordAt c.state words) = pending (bufferWord g.cipher) := by
      rw [wordAt_keystream, Function.iterate_succ_apply', ← progress.state]
      rfl
    have flow := progress.flow
    rw [empty, List.append_nil] at flow
    rw [keystream.available_succ, ← flow, ← word]
    rfl

/-- A generation that has filled its output is a read from the tap. -/
theorem Progress.read {c : Cipher} {count words : Nat} {g : Filling} (progress : Progress c count words g)
    (full : g.pos = count) (spare : words = 0 ∨ (pending g.cipher).length < 8) :
    keystream.serve (.read count) (tap c) = (.bytes g.output, tap g.cipher) := by
  have size := progress.size
  have flow := progress.flow
  rw [full, List.take_of_length_le (by omega)] at flow
  have sizes := congrArg List.length flow
  rw [List.length_append, keystream.length_available, width_keystream] at sizes
  have needed : keystream.needed (tap c) count = words := by
    apply keystream.needed_unique
    · rw [width_keystream]
      omega
    · intro drawn
      rw [width_keystream]
      omega
  have delivered : (keystream.available (tap c) words).take count = g.output := by
    rw [← flow, List.take_left' size]
  have left : (keystream.available (tap c) words).drop count = pending g.cipher := by
    rw [← flow, List.drop_left' size]
  rw [WordSource.serve, needed, delivered, left, tap, tap, advance_keystream, progress.state]

/-- Draining stops with the output full or the buffer empty. -/
theorem drain_spec (c : Cipher) (output : Bytes) (bound : c.bufferPos ≤ 8) :
    ∃ g, whileLoop draining drainByte output.length ⟨c, output, 0⟩ = .ok g ∧ Progress c output.length 0 g ∧
      (g.pos = output.length ∨ g.cipher.bufferPos = 8) := by
  have start : Progress c output.length 0 ⟨c, output, 0⟩ :=
    ⟨rfl, Nat.zero_le _, bound, rfl, by simp [WordSource.available, tap], ⟨rfl, rfl, rfl, rfl⟩⟩
  have body : ∀ g, Progress c output.length 0 g → draining g = true → ∃ g', drainByte g = .ok g' ∧
      Progress c output.length 0 g' ∧ output.length - g'.pos < output.length - g.pos := by
    intro g progress more
    simp only [draining, Bool.and_eq_true, decide_eq_true_eq, progress.size] at more
    obtain ⟨g', ran, kept, pos, _⟩ := drainByte_progress progress more.1 more.2
    exact ⟨g', ran, kept, by omega⟩
  obtain ⟨g, ran, progress, stopped⟩ := whileLoop_spec _ _ body output.length ⟨c, output, 0⟩ start (by simp)
  have inside := progress.inside
  have bound := progress.bound
  refine ⟨g, ran, progress, ?_⟩
  simp only [draining, Bool.and_eq_false_iff, decide_eq_false_iff_not, progress.size] at stopped
  omega

/-- Whole words are written until less than one is missing. -/
theorem fill_spec {c : Cipher} {count : Nat} {g : Filling} (progress : Progress c count 0 g)
    (drained : g.pos = count ∨ g.cipher.bufferPos = 8) :
    ∃ g' words, whileLoop filling fillWord count g = .ok g' ∧ Progress c count words g' ∧ count < g'.pos + 8 ∧
      (g'.pos = count ∧ words = 0 ∨ g'.cipher.bufferPos = 8) := by
  have start : ∃ words, Progress c count words g ∧ (g.pos = count ∧ words = 0 ∨ g.cipher.bufferPos = 8) :=
    ⟨0, progress, drained.imp_left fun full => ⟨full, rfl⟩⟩
  have body : ∀ g, (∃ words, Progress c count words g ∧ (g.pos = count ∧ words = 0 ∨ g.cipher.bufferPos = 8)) →
      filling g = true → ∃ g', fillWord g = .ok g' ∧
        (∃ words, Progress c count words g' ∧ (g'.pos = count ∧ words = 0 ∨ g'.cipher.bufferPos = 8)) ∧
        count - g'.pos < count - g.pos := by
    rintro g ⟨words, progress, ready⟩ more
    simp only [filling, decide_eq_true_eq, progress.size] at more
    rcases ready with ⟨full, _⟩ | empty
    · omega
    · obtain ⟨g', ran, kept, pos, empty'⟩ := fillWord_progress progress more empty
      exact ⟨g', ran, ⟨words + 1, kept, Or.inr empty'⟩, by omega⟩
  obtain ⟨g', ran, ⟨words, progress', ready⟩, stopped⟩ := whileLoop_spec _ _ body count g start (by omega)
  simp only [filling, decide_eq_false_iff_not, progress'.size] at stopped
  exact ⟨g', words, ran, progress', by omega, ready⟩

/-- The bytes still missing are drained from a buffer that has more than enough. -/
theorem finish_spec {c : Cipher} {count words : Nat} {g : Filling} (progress : Progress c count words g)
    (missing : g.pos < count) (enough : count + g.cipher.bufferPos < g.pos + 8) :
    ∃ g', whileLoop finishing drainByte count g = .ok g' ∧ Progress c count words g' ∧ g'.pos = count ∧
      0 < g'.cipher.bufferPos := by
  have start : Progress c count words g ∧ g.cipher.bufferPos + g.pos = g.cipher.bufferPos + g.pos := ⟨progress, rfl⟩
  have body : ∀ g', (Progress c count words g' ∧ g'.cipher.bufferPos + g.pos = g.cipher.bufferPos + g'.pos) →
      finishing g' = true → ∃ g'', drainByte g' = .ok g'' ∧
        (Progress c count words g'' ∧ g''.cipher.bufferPos + g.pos = g.cipher.bufferPos + g''.pos) ∧
        count - g''.pos < count - g'.pos := by
    rintro g' ⟨progress', together⟩ more
    simp only [finishing, decide_eq_true_eq, progress'.size] at more
    obtain ⟨g'', ran, kept, pos, bufferPos⟩ := drainByte_progress progress' more (by omega)
    exact ⟨g'', ran, ⟨kept, by omega⟩, by omega⟩
  obtain ⟨g', ran, ⟨progress', together⟩, stopped⟩ := whileLoop_spec _ _ body count g start (by omega)
  have inside := progress'.inside
  simp only [finishing, decide_eq_false_iff_not, progress'.size] at stopped
  exact ⟨g', ran, progress', by omega, by omega⟩

/-- `generate` is a read from the tap of the cipher, without an access outside the output or
    the buffer; it changes neither the reset point nor the key material. -/
theorem generate_reads (c : Cipher) (output : Bytes) (bound : c.bufferPos ≤ 8) :
    ∃ out c', generate c output = .ok (out, c') ∧
      keystream.serve (.read output.length) (tap c) = (.bytes out, tap c') ∧ c'.bufferPos ≤ 8 ∧ SameSeed c c' := by
  obtain ⟨drained, ranDrain, progress, ready⟩ := drain_spec c output bound
  obtain ⟨filled, words, ranFill, progress', short, ready'⟩ := fill_spec progress ready
  have size := progress'.size
  have inside := progress'.inside
  simp only [generate, ranDrain, ranFill, bind, Except.bind, size]
  by_cases missing : filled.pos < output.length
  · have empty : filled.cipher.bufferPos = 8 := by omega
    obtain ⟨last, ranFinish, progress'', full, positive⟩ :=
      finish_spec (bufferWord_progress progress' empty) missing (by simpa [bufferWord] using short)
    rw [if_pos missing, ranFinish]
    refine ⟨last.output, last.cipher, rfl, progress''.read full (Or.inr ?_), progress''.bound, progress''.seed⟩
    rw [length_pending]
    omega
  · have full : filled.pos = output.length := by omega
    rw [if_neg missing]
    refine ⟨filled.output, filled.cipher, rfl, progress'.read full ?_, progress'.bound, progress'.seed⟩
    rw [length_pending]
    omega

end Eahcm.Ciphers
