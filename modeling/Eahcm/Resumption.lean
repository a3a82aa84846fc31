import Eahcm.Sessions

/-!
Moving a stream from one cipher to another. An export holds the state and not the bytes that
`generate` has buffered, so the importing cipher goes on with the next word: the two streams
agree when the buffer is empty at the export, and otherwise only if the keystream repeats one
word for ever (`resumption_iff`).
-/
namespace Eahcm.Resumption
open Eahcm.Types Eahcm.States Eahcm.KeySchedule Eahcm.Json Eahcm.LittleEndian Eahcm.Machines Eahcm.WordTaps
open Eahcm.Ciphers Eahcm.Streams Eahcm.Sessions
variable {σ : Type}

/-- The form in which a state is exported and imported. -/
inductive Form
  | binary
  | json (pretty : Bool)

/-- The import of what a cipher exports. -/
def carried : Form → Cipher → Call
  | .binary, c => .importState (exportState c)
  | .json pretty, c => .importStateJson (exportStateJson classic c pretty)

/-- An import of an export succeeds and installs the state. -/
theorem serve_carried (form : Form) (c d : Cipher) : serve (carried form c) d = (.done, install d c.state) := by
  cases form with
  | binary => exact serve_importState_serializeBinary d c.state
  | json pretty => exact serve_importStateJson_serializeJson d classic_ungrouped c.state pretty

theorem tapResponse_injective : Function.Injective tapResponse := by
  intro a b same
  cases a with
  | bytes output =>
    cases b with
    | bytes output' => exact congrArg Answer.bytes (Response.bytes.inj same)
    | word => cases same
  | word word =>
    cases b with
    | bytes => cases same
    | word word' => exact congrArg Answer.word (Response.word.inj same)
theorem tapRequest_surjective : Function.Surjective tapRequest := by
  intro request
  cases request with
  | read count => exact ⟨.generate count, rfl⟩
  | word => exact ⟨.next, rfl⟩

/-- Draws tell two ciphers apart when requests tell their taps apart. -/
theorem indistinguishable_iff_taps {c c' : Cipher} (bound : c.bufferPos ≤ 8) (bound' : c'.bufferPos ≤ 8) :
    Indistinguishable draw c c' ↔ Indistinguishable keystream.serve (tap c) (tap c') := by
  have left (draws : List Draw) := draw_simulates.answers_eq draws ⟨rfl, bound⟩
  have right (draws : List Draw) := draw_simulates.answers_eq draws ⟨rfl, bound'⟩
  constructor
  · intro same requests
    obtain ⟨draws, rfl⟩ := (List.map_surjective_iff.mpr tapRequest_surjective) requests
    have both := same draws
    rw [left, right] at both
    exact List.map_injective_iff.mpr tapResponse_injective both
  · intro same draws
    rw [left, right, same]

/-- The keystream repeats one word from here on, and the buffered bytes continue its repetition. -/
def RepeatsPending (c : Cipher) : Prop :=
  (∀ k, streamWord c.state k = streamWord c.state 0) ∧
    pending c ++ toBytes 8 (streamWord c.state 0) = toBytes 8 (streamWord c.state 0) ++ pending c

/-- A cipher with any buffer and one with the same state and an empty buffer. -/
theorem indistinguishable_install_iff {c : Cipher} (bound : c.bufferPos ≤ 8) (d : Cipher) :
    Indistinguishable draw c (install d c.state) ↔ c.bufferPos = 8 ∨ RepeatsPending c := by
  have words (k : Nat) : keystream.wordAt c.state k = streamWord c.state k := wordAt_keystream c.state k
  have size := length_pending c
  rw [indistinguishable_iff_taps bound (Nat.le_refl 8)]
  change Indistinguishable keystream.serve ⟨c.state, pending c⟩ ⟨c.state, []⟩ ↔ _
  by_cases empty : c.bufferPos = 8
  · have none : pending c = [] := List.length_eq_zero_iff.mp (by omega)
    refine iff_of_true ?_ (Or.inl empty)
    rw [none]
    exact fun _ => rfl
  · have left : pending c ≠ [] := by
      intro none
      rw [none, List.length_nil] at size
      omega
    rw [keystream.indistinguishable_from_empty_iff c.state (pending c) left (by rw [width_keystream]; omega)]
    simp only [words, empty, false_or]
    rfl

/-- A cipher that imports what another exports goes on exactly like it, for all later draws, if
    and only if nothing was buffered at the export, or the buffered bytes make no difference
    because the keystream repeats one word. -/
theorem resumption_iff {hmac : Hmac σ} {c : Cipher} (reachable : Reachable hmac c) (form : Form) (d : Cipher) :
    (serve (carried form c) d).1 = .done ∧
      (Indistinguishable draw c (serve (carried form c) d).2 ↔ c.bufferPos = 8 ∨ RepeatsPending c) := by
  rw [serve_carried]
  exact ⟨rfl, indistinguishable_install_iff reachable.bound d⟩

/-- The cipher of the reference vector. -/
def referenceCipher : Cipher :=
  seededWith (derivedState referenceHmac [0x42] (List.replicate 12 1) [] []) [0x42] (List.replicate 12 1) []

theorem reachable_referenceCipher : Reachable (pureHmac referenceHmac) referenceCipher := by
  obtain ⟨st', ran⟩ := construct_computes (pureHmac_computes referenceHmac) (List.replicate 12 1) []
    (show [(0x42 : Byte)] ≠ [] by decide) ()
  exact .constructed ran

/-- Exported before anything is drawn. -/
theorem resumption_reference :
    Indistinguishable draw referenceCipher (serve (carried (.json true) referenceCipher) (next referenceCipher).2).2 :=
  (resumption_iff reachable_referenceCipher (.json true) (next referenceCipher).2).2.mpr (Or.inl rfl)

/-- The same cipher after one byte. -/
def splitWordCipher : Cipher := (serve (.draw (.generate 1)) referenceCipher).2

/-- Exported after one byte, and imported by a cipher with the same key: the next byte differs. -/
theorem not_resumed :
    Reachable (pureHmac referenceHmac) splitWordCipher ∧ Reachable (pureHmac referenceHmac) referenceCipher ∧
      splitWordCipher.bufferPos = 1 ∧ answers draw [.generate 1] splitWordCipher ≠
        answers draw [.generate 1] (serve (carried .binary splitWordCipher) referenceCipher).2 := by
  refine ⟨.served _ reachable_referenceCipher, reachable_referenceCipher, ?_, ?_⟩
  · decide +kernel
  · decide +kernel

end Eahcm.Resumption
