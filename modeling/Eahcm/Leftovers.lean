import Eahcm.Facades

/-!
Objects whose seeding is gone. A seeding that the crypto library fails, and a move, leave an object that
still answers: with as many zero bytes as there were bytes to come, and then with the keystream of the
zero state. What it answers does not depend on the key it had nor on the one it was given
(`leftovers_public`).
-/
namespace Eahcm.Leftovers
open Eahcm.Types Eahcm.LittleEndian Eahcm.States Eahcm.KeySchedule Eahcm.Machines Eahcm.WordTaps Eahcm.Ciphers Eahcm.Streams Eahcm.Sessions
  Eahcm.Facades
variable {σ : Type}

theorem view_zeros (position : Nat) :
    view { bufferPos := position } = ⟨{}, {}, List.replicate (8 - position) 0⟩ := by
  have zeros : pending { bufferPos := position } = List.replicate (8 - position) 0 := List.drop_replicate
  rw [view, zeros]
theorem view_movedFrom (c : Cipher) : view (movedFrom c) = view {} := by
  rw [view, view, pending_nil rfl, pending_nil rfl]
  rfl

/-- What a seeding that throws leaves, when there was a key. -/
theorem reseed_failed {hmac : Hmac σ} {key nonce info : Bytes} (present : key ≠ []) {c d : Cipher} {st st' : σ} {e : Fault}
    (failed : reseed hmac key nonce info c st = (.error e, d, st')) : e = hmacFailed ∧ d = reseedWiped c key nonce info := by
  rw [reseed_run hmac nonce info present, deriveState_run hmac key nonce [] info present] at failed
  rcases answer : exchanges hmac key nonce [] info st with ⟨_ | blocks, st''⟩
  · rw [answer] at failed
    cases failed
    exact ⟨rfl, rfl⟩
  · rw [answer] at failed
    cases failed

theorem view_reseedWiped_zeros (c : Cipher) (key nonce info : Bytes) :
    view (reseedWiped c key nonce info) = view { bufferPos := c.bufferPos } := by
  rw [view_reseedWiped, view_zeros, View.wiped]
  change (⟨{}, {}, List.replicate (pending c).length 0⟩ : View) = _
  rw [length_pending]

/-- Objects with one view answer alike, whatever is asked of them and of the crypto library. -/
theorem indistinguishable_of_view {hmac : Hmac σ} {c c' : Cipher} (bound : c.bufferPos ≤ 8) (bound' : c'.bufferPos ≤ 8)
    (same : view c = view c') (library : σ) : Indistinguishable (obey hmac) (c, library) (c', library) := by
  intro orders
  rw [answers_obey bound, answers_obey bound', same]

theorem generate_zeros {c : Cipher} (bound : c.bufferPos ≤ 8) {position : Nat} (same : view c = view { bufferPos := position })
    (count : Nat) : (serve (.draw (.generate count)) c).1 =
      .bytes ((List.replicate (8 - position) 0 ++ keystream.supply count {}).take count) := by
  have delivers := keystream.read_delivers ⟨{}, List.replicate (8 - position) 0⟩ (keystream.needed_le _ count)
  rw [(serve_shows (.draw (.generate count)) bound).1, same, view_zeros, View.serve]
  change tapResponse (keystream.serve (.read count) ⟨{}, List.replicate (8 - position) 0⟩).1 = _
  rw [delivers]
  rfl

/-- What either move leaves. -/
theorem movedFrom_blank (hmac : Hmac σ) (c : Cipher) :
    (∀ library, Indistinguishable (obey hmac) (movedFrom c, library) ({}, library)) ∧
      ∀ count, (serve (.draw (.generate count)) (movedFrom c)).1 = .bytes ((keystream.supply count {}).take count) :=
  ⟨indistinguishable_of_view (Nat.le_refl 8) (Nat.le_refl 8) (view_movedFrom c),
    generate_zeros (Nat.le_refl 8) (view_movedFrom c)⟩

/-- After a seeding that the crypto library failed an object is to its callers, in all that they can ask of it
    from then on, an object made of zeros with as many bytes left to deliver: it hands out these as zeros,
    and then the keystream of the zero state. An object that was moved from, by either move and whatever it was
    moved to, is one with none left. -/
theorem leftovers_public {hmac : Hmac σ} {c : Cipher} (reachable : Reachable hmac c) :
    (∀ key nonce info st e d st', key ≠ [] → reseed hmac key nonce info c st = (.error e, d, st') →
        e = hmacFailed ∧
          (∀ library, Indistinguishable (obey hmac) (d, library) ({ bufferPos := c.bufferPos }, library)) ∧
            ∀ count, (serve (.draw (.generate count)) d).1 =
              .bytes ((List.replicate (8 - c.bufferPos) 0 ++ keystream.supply count {}).take count)) ∧
      ∀ left, left = (moveConstruct c).2 ∨ (∃ target, left = (moveAssign target c).2) →
        (∀ library, Indistinguishable (obey hmac) (left, library) ({}, library)) ∧
          ∀ count, (serve (.draw (.generate count)) left).1 = .bytes ((keystream.supply count {}).take count) := by
  have bound := reachable.bound
  refine ⟨fun key nonce info st e d st' present failed => ?_, fun left moved => ?_⟩
  · obtain ⟨rfl, rfl⟩ := reseed_failed present failed
    have same := view_reseedWiped_zeros c key nonce info
    have bound' : (reseedWiped c key nonce info).bufferPos ≤ 8 := bound
    exact ⟨rfl, indistinguishable_of_view bound' bound same, generate_zeros bound' same⟩
  · rcases moved with rfl | ⟨target, rfl⟩
    · exact movedFrom_blank hmac c
    · exact movedFrom_blank hmac c

/-- A cipher that was seeded, and a library that fails its second seeding. -/
theorem leftovers_public_failed : ∃ c d, Reachable (failingFrom 4 referenceHmac) c ∧ c.keyMaterial = [0x42] ∧
    c.nonceMaterial = List.replicate 12 1 ∧
      reseed (failingFrom 4 referenceHmac) [0x43] [] [] c 4 = (.error hmacFailed, d, 5) ∧
        (serve (.draw (.generate 8)) d).1 = .bytes (toBytes 8 (extract (step {}))) := by
  have built := construct_failingFrom referenceHmac (Nat.le_refl 4) (List.replicate 12 1) []
    (show [(0x42 : Byte)] ≠ [] by decide)
  have present : [(0x43 : Byte)] ≠ [] := by decide
  have failed := reseed_failingFrom referenceHmac (Nat.le_refl 4) [] [] present
  obtain ⟨_, _, delivers⟩ := (leftovers_public (.constructed built)).1 [0x43] [] [] 4 _ _ _ present (failed _)
  refine ⟨_, _, .constructed built, rfl, rfl, failed _, (delivers 8).trans (congrArg Response.bytes ?_)⟩
  decide +kernel

end Eahcm.Leftovers
