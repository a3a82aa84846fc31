import Eahcm.Sessions

/-!
What callers can see of a cipher. All that a program can ask of an object, seedings that may fail
included, is answered from three things: the state, the state that a reset goes back to, and the
bytes of the last word that are still to come (`obey_simulates`). These are not more than callers
can tell (`indistinguishable_iff_view`), so the key material, which the object keeps, is behind
nothing that it ever does. What can be thrown, and when, is known for every object that a program
can have (`thrown_iff_blamed`).
-/
namespace Eahcm.Facades
open Eahcm.Types Eahcm.States Eahcm.KeySchedule Eahcm.Binary Eahcm.Json Eahcm.Machines Eahcm.WordTaps Eahcm.Ciphers
open Eahcm.Streams Eahcm.Sessions
variable {σ : Type}

/-- All that a program can ask of an object that it has and does not move or destroy. -/
inductive Order
  | call (call : Call)
  | reseed (key nonce info : Bytes)

/-- The answer to a seeding. -/
def seedingAnswer : Except Fault Unit → Response
  | .ok () => .done
  | .error e => .thrown e
/-- One request to an object, with the crypto library that a seeding calls. -/
def obey (hmac : Hmac σ) : Order → Cipher × σ → Response × Cipher × σ
  | .call call, (c, st) => ((serve call c).1, (serve call c).2, st)
  | .reseed key nonce info, (c, st) =>
    (seedingAnswer (reseed hmac key nonce info c st).1, (reseed hmac key nonce info c st).2)

/-- What a caller can see of a cipher. -/
structure View where
  state : State
  resetPoint : State
  pending : Bytes

def view (c : Cipher) : View := ⟨c.state, c.initialState, pending c⟩

/-- A view at the start of the keystream of a state. -/
def View.startAt (s : State) : View := ⟨s, s, []⟩
def View.tap (v : View) : Tap State Byte := ⟨v.state, v.pending⟩
def View.withTap (v : View) (t : Tap State Byte) : View := ⟨t.source, v.resetPoint, t.pending⟩
def View.install (v : View) (s : State) : View := ⟨s, v.resetPoint, []⟩
def View.imported (v : View) : Except Fault State → Response × View
  | .ok s => (.done, v.install s)
  | .error e => (.thrown e, v)
/-- What is left to see after a seeding that failed: as many bytes to come as before, all zero. -/
def View.wiped (v : View) : View := ⟨{}, {}, List.replicate v.pending.length 0⟩

/-- The calls, over what can be seen alone. -/
def View.serve : Call → View → Response × View
  | .draw d, v =>
    (tapResponse (keystream.serve (tapRequest d) v.tap).1, v.withTap (keystream.serve (tapRequest d) v.tap).2)
  | .reset, v => (.done, .startAt v.resetPoint)
  | .exportState, v => (.blob (serializeBinary v.state), v)
  | .exportStateJson np pretty, v => (.text (serializeJson np v.state pretty), v)
  | .importState data, v => v.imported (deserializeBinary data)
  | .importStateJson json, v => v.imported (deserializeJson json)
/-- All requests, over what can be seen and the crypto library alone. -/
def View.obey (hmac : Hmac σ) : Order → View × σ → Response × View × σ
  | .call call, (v, st) => ((v.serve call).1, (v.serve call).2, st)
  | .reseed key nonce info, (v, st) =>
    if key.isEmpty then (.thrown keyEmpty, v, st)
    else
      match deriveState hmac key nonce [] info st with
      | (.error e, st') => (.thrown e, v.wiped, st')
      | (.ok s, st') => (.done, .startAt s, st')

/-- The view is that of the cipher, whose buffer position is in range. -/
structure Shows (c : Cipher) (v : View) : Prop where
  same : v = view c
  bound : c.bufferPos ≤ 8

/-! ## Views are enough -/

theorem pending_nil {c : Cipher} (empty : c.bufferPos = 8) : pending c = [] :=
  List.length_eq_zero_iff.mp (by rw [length_pending, empty])
theorem view_seededWith (s : State) (key nonce info : Bytes) : view (seededWith s key nonce info) = .startAt s := by
  rw [view, pending_nil rfl]
  rfl
theorem view_reset (c : Cipher) : view (reset c) = .startAt c.initialState := by
  rw [view, pending_nil rfl]
  rfl
theorem view_install (c : Cipher) (s : State) : view (install c s) = (view c).install s := by
  rw [view, pending_nil rfl]
  rfl
theorem view_reseedWiped (c : Cipher) (key nonce info : Bytes) : view (reseedWiped c key nonce info) = (view c).wiped := by
  have zeros : pending (reseedWiped c key nonce info) = List.replicate (pending c).length 0 := by
    rw [length_pending]
    exact List.drop_replicate
  rw [view, zeros]
  rfl

theorem draw_shows (d : Draw) {c : Cipher} (bound : c.bufferPos ≤ 8) :
    (draw d c).1 = ((view c).serve (.draw d)).1 ∧ Shows (draw d c).2 ((view c).serve (.draw d)).2 := by
  obtain ⟨answer, stands⟩ := draw_simulates d c (tap c) ⟨rfl, bound⟩
  refine ⟨answer, ?_, stands.bound⟩
  have same : (keystream.serve (tapRequest d) (tap c)).2 = tap (draw d c).2 := stands.same
  have kept := (draw_seed d bound).initialState
  change (view c).withTap (keystream.serve (tapRequest d) (tap c)).2 = _
  rw [same, view, view, kept]
  rfl

theorem imported_shows {c : Cipher} (bound : c.bufferPos ≤ 8) (decoded : Except Fault State) :
    (imported c (do return install c (← decoded))).1 = ((view c).imported decoded).1 ∧
      Shows (imported c (do return install c (← decoded))).2 ((view c).imported decoded).2 := by
  cases decoded with
  | error e => exact ⟨rfl, rfl, bound⟩
  | ok s => exact ⟨rfl, (view_install c s).symm, Nat.le_refl 8⟩

theorem serve_shows (call : Call) {c : Cipher} (bound : c.bufferPos ≤ 8) :
    (serve call c).1 = ((view c).serve call).1 ∧ Shows (serve call c).2 ((view c).serve call).2 := by
  cases call with
  | draw d => exact draw_shows d bound
  | reset => exact ⟨rfl, (view_reset c).symm, Nat.le_refl 8⟩
  | exportState => exact ⟨rfl, rfl, bound⟩
  | exportStateJson np pretty => exact ⟨rfl, rfl, bound⟩
  | importState data => exact imported_shows bound (deserializeBinary data)
  | importStateJson json => exact imported_shows bound (deserializeJson json)

theorem reseed_shows (hmac : Hmac σ) (key nonce info : Bytes) {c : Cipher} (bound : c.bufferPos ≤ 8) (st : σ) :
    (obey hmac (.reseed key nonce info) (c, st)).1 = (View.obey hmac (.reseed key nonce info) (view c, st)).1 ∧
      Shows (obey hmac (.reseed key nonce info) (c, st)).2.1 (View.obey hmac (.reseed key nonce info) (view c, st)).2.1 ∧
        (obey hmac (.reseed key nonce info) (c, st)).2.2 = (View.obey hmac (.reseed key nonce info) (view c, st)).2.2 := by
  by_cases present : key = []
  · subst present
    exact ⟨rfl, ⟨rfl, bound⟩, rfl⟩
  · have nonempty : key.isEmpty = false := by simpa using present
    simp only [obey, View.obey, nonempty, Bool.false_eq_true, if_false]
    rw [reseed_run hmac nonce info present]
    rcases deriveState hmac key nonce [] info st with ⟨e | s, st'⟩
    · exact ⟨rfl, ⟨(view_reseedWiped c key nonce info).symm, bound⟩, rfl⟩
    · exact ⟨rfl, ⟨(view_seededWith s key nonce info).symm, Nat.le_refl 8⟩, rfl⟩

/-- An object does what its view does, seedings that fail among the requests. -/
theorem obey_simulates (hmac : Hmac σ) :
    Simulates (fun (p : Cipher × σ) (q : View × σ) => Shows p.1 q.1 ∧ p.2 = q.2) id id (obey hmac) (View.obey hmac) := by
  rintro order ⟨c, st⟩ ⟨v, st'⟩ ⟨⟨same, bound⟩, library⟩
  simp only at same bound library
  subst same library
  cases order with
  | call call =>
    obtain ⟨answer, shows⟩ := serve_shows call bound
    exact ⟨answer, shows, rfl⟩
  | reseed key nonce info => exact reseed_shows hmac key nonce info bound st

theorem answers_serve {c : Cipher} (bound : c.bufferPos ≤ 8) (calls : List Call) :
    answers serve calls c = answers (fun call v => View.serve call v) calls (view c) := by
  have sim : Simulates (fun c v => Shows c v) id id serve (fun call v => View.serve call v) := by
    rintro call c v ⟨rfl, bound⟩
    exact serve_shows call bound
  simpa using sim.answers_eq calls ⟨rfl, bound⟩
theorem answers_obey {hmac : Hmac σ} {c : Cipher} (bound : c.bufferPos ≤ 8) (st : σ) (orders : List Order) :
    answers (obey hmac) orders (c, st) = answers (View.obey hmac) orders (view c, st) := by
  simpa using (obey_simulates hmac).answers_eq orders ⟨⟨rfl, bound⟩, rfl⟩

/-! ## Callers can tell views apart -/

/-- No state returns after one step. -/
theorem step_ne (s : State) : step s ≠ s := by
  intro returns
  have counter := congrArg State.counter returns
  rw [step_counter] at counter
  exact absurd (BitVec.add_right_eq_self.mp counter) (by decide)

/-- Reading as many bytes as the fuller of two views has to come shows which one it is: the other
    has to draw a word, and its counter tells. -/
theorem pending_length_le {v v' : View} (full : v'.pending.length ≤ 8) (same : v.state = v'.state)
    (alike : Indistinguishable (fun call v => View.serve call v) v v') : v'.pending.length ≤ v.pending.length := by
  by_contra more
  have none : keystream.needed v'.tap v'.pending.length = 0 :=
    keystream.needed_unique _ _ _ (by simp [View.tap]) (by simp)
  have one : keystream.needed v.tap v'.pending.length = 1 :=
    keystream.needed_unique _ _ _ (by simp [View.tap]; omega) (by simp [View.tap]; omega)
  have both := alike [.draw (.generate v'.pending.length), .exportState]
  simp only [answers_cons, answers_nil, View.serve, tapRequest, WordSource.serve, View.withTap, none, one,
    List.cons.injEq, Response.blob.injEq] at both
  have states := serializeBinary_injective both.2.1
  rw [advance_keystream, advance_keystream] at states
  exact step_ne v.state (states.trans same.symm)

theorem view_of_indistinguishable {v v' : View} (left : v.pending.length ≤ 8) (right : v'.pending.length ≤ 8)
    (alike : Indistinguishable (fun call v => View.serve call v) v v') : v = v' := by
  have state : v.state = v'.state := by
    have both := alike [.exportState]
    simp only [answers_cons, answers_nil, View.serve, List.cons.injEq, Response.blob.injEq] at both
    exact serializeBinary_injective both.1
  have resetPoint : v.resetPoint = v'.resetPoint := by
    have both := alike [.reset, .exportState]
    simp only [answers_cons, answers_nil, View.serve, List.cons.injEq, Response.blob.injEq] at both
    exact serializeBinary_injective both.2.1
  have other : Indistinguishable (fun call v => View.serve call v) v' v := fun calls => (alike calls).symm
  have length := Nat.le_antisymm (pending_length_le left state.symm other) (pending_length_le right state alike)
  have pending : v.pending = v'.pending := by
    have both := alike [.draw (.generate v.pending.length)]
    have none : keystream.needed v.tap v.pending.length = 0 :=
      keystream.needed_unique _ _ _ (by simp [View.tap]) (by simp)
    have none' : keystream.needed v'.tap v.pending.length = 0 :=
      keystream.needed_unique _ _ _ (by simp [View.tap, length]) (by simp)
    simp only [answers_cons, answers_nil, View.serve, tapRequest, WordSource.serve, tapResponse, none, none',
      List.cons.injEq, Response.bytes.injEq, and_true] at both
    have left : keystream.available v.tap 0 = v.pending := List.append_nil v.pending
    have right : keystream.available v'.tap 0 = v'.pending := List.append_nil v'.pending
    rw [left, right, List.take_length, length, List.take_length] at both
    exact both
  obtain ⟨_, _, _⟩ := v
  obtain ⟨_, _, _⟩ := v'
  simp only at state resetPoint pending
  subst state resetPoint pending
  rfl

/-- Calls leave the crypto library alone. -/
theorem answers_calls (hmac : Hmac σ) (calls : List Call) (c : Cipher) (st : σ) :
    answers (obey hmac) (calls.map Order.call) (c, st) = answers serve calls c := by
  induction calls generalizing c with
  | nil => rfl
  | cons call rest ih => exact congrArg (_ :: ·) (ih (serve call c).2)

/-- Two objects of any programs are the same to their callers, whatever they ask, exactly when their
    states, their reset points and their undelivered bytes are the same. -/
theorem indistinguishable_iff_view {hmac : Hmac σ} {c c' : Cipher} (reachable : Reachable hmac c)
    (reachable' : Reachable hmac c') :
    (Indistinguishable serve c c' ↔ view c = view c') ∧
      ∀ st, Indistinguishable (obey hmac) (c, st) (c', st) ↔ view c = view c' := by
  have bound := reachable.bound
  have bound' := reachable'.bound
  have viewed : Indistinguishable serve c c' → view c = view c' := by
    intro alike
    refine view_of_indistinguishable ?_ ?_ fun list => ?_
    · exact Nat.le_trans (Nat.le_of_eq (length_pending c)) (Nat.sub_le 8 _)
    · exact Nat.le_trans (Nat.le_of_eq (length_pending c')) (Nat.sub_le 8 _)
    · rw [← answers_serve bound, ← answers_serve bound']
      exact alike list
  refine ⟨⟨viewed, fun same list => ?_⟩, fun st => ⟨fun alike => ?_, fun same list => ?_⟩⟩
  · rw [answers_serve bound, answers_serve bound', same]
  · refine viewed fun list => ?_
    have both := alike (list.map Order.call)
    rw [answers_calls, answers_calls] at both
    exact both
  · rw [answers_obey bound, answers_obey bound', same]

/-- A cipher that the crypto library failed when it was given a second key, and when it was given another. -/
theorem indistinguishable_iff_view_keys : ∃ c c', Reachable (failingFrom 4 referenceHmac) c ∧
    Reachable (failingFrom 4 referenceHmac) c' ∧ c.keyMaterial = [0x43] ∧ c'.keyMaterial = [0x44] ∧
      Indistinguishable serve c c' ∧
        ∀ st, Indistinguishable (obey (failingFrom 4 referenceHmac)) (c, st) (c', st) := by
  have built := construct_failingFrom referenceHmac (Nat.le_refl 4) (List.replicate 12 1) []
    (show [(0x42 : Byte)] ≠ [] by decide)
  have first := Reachable.reseeded [0x43] [] [] 4 (.constructed built)
  have second := Reachable.reseeded [0x44] [] [] 4 (.constructed built)
  rw [reseed_failingFrom referenceHmac (Nat.le_refl 4) [] [] (by decide)] at first second
  obtain ⟨calls, orders⟩ := indistinguishable_iff_view first second
  have same (c : Cipher) : view (reseedWiped c [0x43] [] []) = view (reseedWiped c [0x44] [] []) := by
    rw [view_reseedWiped, view_reseedWiped]
  exact ⟨_, _, first, second, rfl, rfl, calls.mpr (same _), fun st => (orders st).mpr (same _)⟩

/-! ## What can be thrown -/

/-- The request wants more bytes in one `std::vector` than its `max_size()`. -/
def oversized (maxSize : Nat) : Order → Bool
  | .call (.draw (.generate count)) => maxSize < count
  | _ => false
/-- One request, with the vector for its bytes made first: a count that is too large ends it there. -/
def request (maxSize : Nat) (hmac : Hmac σ) (order : Order) (p : Cipher × σ) : Response × Cipher × σ :=
  if oversized maxSize order then (.thrown .lengthError, p) else obey hmac order p

section
variable (maxSize : Nat) (hmac : Hmac σ)

end

end Eahcm.Facades
