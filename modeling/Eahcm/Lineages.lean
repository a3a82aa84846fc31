import Mathlib.Data.Set.Insert
import Eahcm.Threads

/-!
Programs that keep their documents to themselves. An import can put any nine words into a cipher, but
where every document that is imported was exported earlier in the same program, JSON without digit
groups, every state that the program has, exports or draws a word from, whole or byte by byte, is some
number of steps after one that a seeding derived, or after the zeros of a wiped object (`closed_world`).
-/
namespace Eahcm.Lineages
open Eahcm.Types Eahcm.LittleEndian Eahcm.States Eahcm.KeySchedule Eahcm.Binary Eahcm.Json Eahcm.WordTaps
open Eahcm.Ciphers Eahcm.Streams Eahcm.Sessions Eahcm.Objects Eahcm.Lifetimes Eahcm.Threads
variable {σ : Type}

/-- The states that seedings can derive. -/
def derivedStarts (hmac : Hmac σ) : Set State :=
  { s | ∃ key nonce info st st', deriveState hmac key nonce [] info st = (.ok s, st') }
/-- Those and the state of a wiped object. -/
def allStarts (hmac : Hmac σ) : Set State := insert {} (derivedStarts hmac)

/-- Some number of steps after one of the starts. -/
def Descends (starts : Set State) (s : State) : Prop := ∃ start ∈ starts, ∃ k, s = step^[k] start
/-- The end of a word of a good state, or zeros if the zero state is good. -/
def Left (good : State → Prop) (left : Bytes) : Prop :=
  (∃ s, good s ∧ left <:+ toBytes 8 (extract s)) ∨ good {} ∧ left <:+ List.replicate 8 0
/-- The state of a cipher descends from the starts, and so do the bytes that it has left; its reset point is
    one of them. -/
structure Rooted (starts : Set State) (c : Cipher) : Prop where
  state : Descends starts c.state
  left : Left (Descends starts) (pending c)
  resetPoint : c.initialState ∈ starts
  bound : c.bufferPos ≤ 8
/-- All objects of a program are rooted. -/
def AllRooted (starts : Set State) (m : Memory σ) : Prop := ∀ address c, m.objects address = some c → Rooted starts c

theorem Descends.start {starts : Set State} {s : State} (start : s ∈ starts) : Descends starts s := ⟨s, start, 0, rfl⟩
theorem Descends.steps {starts : Set State} {s : State} (descends : Descends starts s) (k : Nat) :
    Descends starts (step^[k] s) := by
  obtain ⟨start, member, n, rfl⟩ := descends
  exact ⟨start, member, k + n, (Function.iterate_add_apply step k n start).symm⟩

theorem Left.none {good : State → Prop} {s : State} (reached : good s) : Left good [] :=
  Or.inl ⟨s, reached, List.nil_suffix⟩
theorem Left.suffix {good : State → Prop} {left rest : Bytes} (known : Left good left) (shorter : rest <:+ left) :
    Left good rest :=
  known.imp (fun ⟨s, reached, ends⟩ => ⟨s, reached, shorter.trans ends⟩) fun ⟨zero, ends⟩ => ⟨zero, shorter.trans ends⟩
theorem Left.mono {good good' : State → Prop} (weaker : ∀ s, good s → good' s) {left : Bytes} (known : Left good left) :
    Left good' left :=
  known.imp (fun ⟨s, reached, ends⟩ => ⟨s, weaker s reached, ends⟩) fun ⟨zero, ends⟩ => ⟨weaker _ zero, ends⟩

theorem Rooted.emptied {starts : Set State} {c : Cipher} (descends : Descends starts c.state)
    (resetPoint : c.initialState ∈ starts) (empty : c.bufferPos = 8) : Rooted starts c where
  state := descends
  left := by
    rw [Facades.pending_nil empty]
    exact .none descends
  resetPoint := resetPoint
  bound := Nat.le_of_eq empty
theorem Rooted.seededWith {starts : Set State} {s : State} (start : s ∈ starts) (key nonce info : Bytes) :
    Rooted starts (seededWith s key nonce info) := .emptied (.start start) start rfl
theorem Rooted.blank {starts : Set State} (zero : {} ∈ starts) {c : Cipher} (state : c.state = {})
    (resetPoint : c.initialState = {}) (buffer : c.buffer = zeroBuffer) (bound : c.bufferPos ≤ 8) : Rooted starts c where
  state := by
    rw [state]
    exact .start zero
  left := by
    rw [pending, buffer]
    exact Or.inr ⟨.start zero, List.drop_suffix _ _⟩
  resetPoint := by
    rw [resetPoint]
    exact zero
  bound := bound
theorem Rooted.draw {starts : Set State} {c : Cipher} (rooted : Rooted starts c) (d : Draw) :
    Rooted starts (draw d c).2 := by
  have same : tap (Ciphers.draw d c).2 = (keystream.serve (tapRequest d) (tap c)).2 :=
    (draw_simulates d c (tap c) ⟨rfl, rooted.bound⟩).2.same.symm
  have state : (Ciphers.draw d c).2.state = (keystream.serve (tapRequest d) (tap c)).2.source := congrArg Tap.source same
  have left : pending (Ciphers.draw d c).2 = (keystream.serve (tapRequest d) (tap c)).2.pending :=
    congrArg Tap.pending same
  refine ⟨?_, ?_, ?_, draw_bound d rooted.bound⟩
  · rw [state]
    cases tapRequest d with
    | word => exact rooted.state.steps 1
    | read count => exact rooted.state.steps _
  · rw [left]
    rcases keystream.pending_serve (tapRequest d) (tap c) with kept | ⟨k, drawn⟩
    · exact rooted.left.suffix kept
    · rw [wordAt_keystream] at drawn
      exact Or.inl ⟨_, rooted.state.steps (k + 1), drawn⟩
  · rw [(draw_seed d rooted.bound).initialState]
    exact rooted.resetPoint
theorem Rooted.reset {starts : Set State} {c : Cipher} (rooted : Rooted starts c) : Rooted starts (reset c) :=
  .emptied (.start rooted.resetPoint) rooted.resetPoint rfl
theorem Rooted.install {starts : Set State} {c : Cipher} (rooted : Rooted starts c) {s : State}
    (descends : Descends starts s) : Rooted starts (install c s) := .emptied descends rooted.resetPoint rfl

/-- Bytes that are left, and then those of words drawn from a state on, all of it good. -/
def Streamed (good : State → Prop) (count : Nat) (answer : Response) : Prop :=
  ∃ left s, Left good left ∧ (∀ k, good (step^[k] s)) ∧
    answer = .bytes ((left ++ keystream.supply count s).take count)
/-- What an answer shows of the states of the program, all of them good: bytes and words drawn from them,
    exported ones, or that a state was imported without a failure. -/
def Genuine (good : State → Prop) : Action → Response → Prop
  | .call _ (.draw (.generate count)), answer => Streamed good count answer
  | .call _ (.draw (.fill output)), answer => Streamed good output.length answer
  | .call _ (.draw .next), answer => ∃ s, good s ∧ answer = .word (extract s)
  | .call _ .exportState, answer => ∃ s, good s ∧ answer = .blob (serializeBinary s)
  | .call _ (.exportStateJson np pretty), answer => ∃ s, good s ∧ answer = .text (serializeJson np s pretty)
  | .call _ (.importState _), answer => answer = .done
  | .call _ (.importStateJson _), answer => answer = .done
  | _, _ => True

theorem Rooted.streamed {starts : Set State} {c : Cipher} (rooted : Rooted starts c) (count : Nat) :
    Streamed (Descends starts) count (tapResponse (keystream.serve (.read count) (tap c)).1) := by
  refine ⟨pending c, c.state, rooted.left, rooted.state.steps, ?_⟩
  rw [keystream.read_delivers (tap c) (keystream.needed_le _ count)]
  rfl

theorem Streamed.mono {good good' : State → Prop} (weaker : ∀ s, good s → good' s) {count : Nat} {answer : Response}
    (streamed : Streamed good count answer) : Streamed good' count answer := by
  obtain ⟨left, s, known, steps, same⟩ := streamed
  exact ⟨left, s, known.mono weaker, fun k => weaker _ (steps k), same⟩
theorem Genuine.mono {good good' : State → Prop} (weaker : ∀ s, good s → good' s) {action : Action} {answer : Response}
    (genuine : Genuine good action answer) : Genuine good' action answer := by
  cases action with
  | call address call =>
    cases call with
    | draw d =>
      cases d with
      | generate count => exact Streamed.mono weaker genuine
      | fill output => exact Streamed.mono weaker genuine
      | next => exact genuine.imp fun s => And.imp_left (weaker s)
    | reset => trivial
    | exportState => exact genuine.imp fun s => And.imp_left (weaker s)
    | exportStateJson np pretty => exact genuine.imp fun s => And.imp_left (weaker s)
    | importState data => exact genuine
    | importStateJson json => exact genuine
  | construct address key nonce info => trivial
  | reseed address key nonce info => trivial
  | moveConstruct address source => trivial
  | moveAssign address source => trivial
  | destroy address => trivial

/-- The action imports nothing, or what was exported before, as JSON under a locale without groups. -/
def Own (earlier : List (Action × Response)) : Action → Prop
  | .call _ (.importState data) => ∃ address, (.call address .exportState, .blob data) ∈ earlier
  | .call _ (.importStateJson json) => ∃ address np pretty, Ungrouped np ∧
      (.call address (.exportStateJson np pretty), .text json) ∈ earlier
  | _ => True
/-- Every action of a program imports nothing else. -/
def Closed : List (Action × Response) → List (Action × Response) → Prop
  | _, [] => True
  | earlier, entry :: rest => Own earlier entry.1 ∧ Closed (earlier ++ [entry]) rest

/-- The action leaves a wiped object behind even when the library does not fail. -/
def Moves : Action → Prop
  | .moveConstruct _ _ => True
  | .moveAssign _ _ => True
  | _ => False

section
variable {starts : Set State} {earlier : List (Action × Response)}
  (genuine : ∀ entry ∈ earlier, Genuine (Descends starts) entry.1 entry.2)
include genuine

theorem own_blob {address : Nat} {data : Blob} (own : Own earlier (.call address (.importState data))) :
    ∃ s, Descends starts s ∧ data = serializeBinary s := by
  obtain ⟨address, exported⟩ := own
  obtain ⟨s, descends, same⟩ := genuine _ exported
  exact ⟨s, descends, Response.blob.inj same⟩
theorem own_text {address : Nat} {json : Text} (own : Own earlier (.call address (.importStateJson json))) :
    ∃ s np pretty, Descends starts s ∧ Ungrouped np ∧ json = serializeJson np s pretty := by
  obtain ⟨address, np, pretty, plain, exported⟩ := own
  obtain ⟨s, descends, same⟩ := genuine _ exported
  exact ⟨s, np, pretty, descends, plain, Response.text.inj same⟩

/-- A call keeps a cipher rooted, and shows nothing else. -/
theorem serve_rooted {address : Nat} {call : Call} (own : Own earlier (.call address call)) {c : Cipher}
    (rooted : Rooted starts c) :
    Genuine (Descends starts) (.call address call) (serve call c).1 ∧ Rooted starts (serve call c).2 := by
  cases call with
  | draw d =>
    refine ⟨?_, rooted.draw d⟩
    have answer : (serve (.draw d) c).1 = tapResponse (keystream.serve (tapRequest d) (tap c)).1 :=
      (draw_simulates d c (tap c) ⟨rfl, rooted.bound⟩).1
    cases d with
    | generate count =>
      rw [answer]
      exact rooted.streamed count
    | fill output =>
      rw [answer]
      exact rooted.streamed output.length
    | next => exact ⟨step c.state, rooted.state.steps 1, rfl⟩
  | reset => exact ⟨trivial, rooted.reset⟩
  | exportState => exact ⟨⟨c.state, rooted.state, rfl⟩, rooted⟩
  | exportStateJson np pretty => exact ⟨⟨c.state, rooted.state, rfl⟩, rooted⟩
  | importState data =>
    obtain ⟨s, descends, rfl⟩ := own_blob genuine own
    rw [serve_importState_serializeBinary]
    exact ⟨rfl, rooted.install descends⟩
  | importStateJson json =>
    obtain ⟨s, np, pretty, descends, plain, written⟩ := own_text genuine own
    rw [written, serve_importStateJson_serializeJson _ plain]
    exact ⟨rfl, rooted.install descends⟩
end

theorem update_rooted {starts : Set State} {m : Memory σ} (rooted : AllRooted starts m) (address : Nat)
    {new : Option Cipher} (put : ∀ c, new = some c → Rooted starts c) :
    ∀ other c, Function.update m.objects address new other = some c → Rooted starts c := by
  intro other c live
  rw [Function.update_apply] at live
  split at live
  · exact put c live
  · exact rooted other c live

theorem moved_rooted {starts : Set State} {m : Memory σ} (rooted : AllRooted starts m) (address source : Nat)
    {t : Transfer} (target : Rooted starts t.target) (other : Rooted starts t.other) :
    AllRooted starts (m.moved address source t) := by
  intro i c live
  rw [objects_moved] at live
  split at live
  · cases live
    exact target
  · split at live
    · cases live
      exact other
    · exact rooted i c live

/-- An action that imports nothing from outside keeps all objects rooted. -/
theorem perform_rooted {hmac : Hmac σ} {starts : Set State} (derived : derivedStarts hmac ⊆ starts) {action : Action}
    (blank : {} ∈ starts ∨ NeverFails hmac ∧ ¬ Moves action) {earlier : List (Action × Response)}
    (genuine : ∀ entry ∈ earlier, Genuine (Descends starts) entry.1 entry.2) (own : Own earlier action)
    {m m' : Memory σ} (rooted : AllRooted starts m) (done : Lifetimes.perform hmac action m = some m') :
    Genuine (Descends starts) action (reply hmac action m) ∧ AllRooted starts m' := by
  have seeded {key nonce info : Bytes} {st st' : σ} {blocks : Digest × Digest} (present : key ≠ [])
      (answered : exchanges hmac key nonce [] info st = (some blocks, st')) :
      stateOf (paramsOf blocks.1 blocks.2) ∈ starts := by
    refine derived ⟨key, nonce, info, st, st', ?_⟩
    rw [deriveState_run hmac key nonce [] info present, answered]
  cases action with
  | construct address key nonce info =>
    refine ⟨trivial, ?_⟩
    rcases perform_construct done with ⟨_, rfl⟩ | ⟨blocks, st, present, answered, rfl⟩ | ⟨st, _, _, rfl⟩
    · exact rooted
    · refine update_rooted rooted address fun c put => ?_
      cases put
      exact .seededWith (seeded present answered) key nonce info
    · exact rooted
  | call address call =>
    obtain ⟨c, live, rfl⟩ := perform_call done
    obtain ⟨shown, kept⟩ := serve_rooted genuine own (rooted address c live)
    simp only [reply, live, Option.map_some, Option.getD_some]
    refine ⟨shown, update_rooted rooted address fun c put => ?_⟩
    cases put
    exact kept
  | reseed address key nonce info =>
    refine ⟨trivial, ?_⟩
    obtain ⟨c, live, rfl⟩ := perform_reseed done
    refine update_rooted rooted address fun c' put => ?_
    cases put
    rcases reseed_cases hmac key nonce info c m.library with
      ⟨_, ran⟩ | ⟨stateBlock, paramBlock, st', answered, present, ran⟩ | ⟨st', failed, present, ran⟩
    · rw [ran]
      exact rooted address c live
    · rw [ran]
      exact .seededWith (seeded present answered) key nonce info
    · rw [ran]
      rcases blank with zero | ⟨never, _⟩
      · exact .blank zero rfl rfl rfl (rooted address c live).bound
      · obtain ⟨blocks, st'', answered⟩ := exchanges_answered never key nonce [] info m.library
        rw [answered] at failed
        cases failed
  | moveConstruct address source =>
    refine ⟨trivial, ?_⟩
    obtain ⟨a, _, live, rfl⟩ := perform_moveConstruct done
    rcases blank with zero | ⟨_, still⟩
    · exact moved_rooted rooted address source (rooted source a live) (.blank zero rfl rfl rfl (Nat.le_refl 8))
    · exact absurd trivial still
  | moveAssign address source =>
    refine ⟨trivial, ?_⟩
    obtain ⟨target, a, _, live, ⟨_, rfl⟩ | ⟨_, rfl⟩⟩ := perform_moveAssign done
    · exact rooted
    · rcases blank with zero | ⟨_, still⟩
      · exact moved_rooted rooted address source (rooted source a live) (.blank zero rfl rfl rfl (Nat.le_refl 8))
      · exact absurd trivial still
  | destroy address =>
    refine ⟨trivial, ?_⟩
    obtain ⟨c, _, rfl⟩ := perform_destroy done
    exact update_rooted rooted address fun c put => by cases put

theorem run_rooted {hmac : Hmac σ} {starts : Set State} (derived : derivedStarts hmac ⊆ starts) {actions : List Action}
    (blank : {} ∈ starts ∨ NeverFails hmac ∧ ∀ action ∈ actions, ¬ Moves action) {earlier : List (Action × Response)}
    (genuine : ∀ entry ∈ earlier, Genuine (Descends starts) entry.1 entry.2) {m last : Memory σ}
    {log : List (Action × Response)} (rooted : AllRooted starts m)
    (done : Interleavings.perform (act hmac) actions m = some (log, last)) (closed : Closed earlier log) :
    (∀ entry ∈ log, Genuine (Descends starts) entry.1 entry.2) ∧ AllRooted starts last := by
  induction actions generalizing earlier m log with
  | nil =>
    cases done
    exact ⟨fun entry impossible => absurd impossible List.not_mem_nil, rooted⟩
  | cons action rest ih =>
    obtain ⟨answer, between, later, first, others, rfl⟩ := Interleavings.perform_cons.mp done
    obtain ⟨m', performed, made⟩ := Option.map_eq_some_iff.mp first
    cases made
    obtain ⟨own, closed'⟩ := closed
    have here : {} ∈ starts ∨ NeverFails hmac ∧ ¬ Moves action :=
      blank.imp_right fun still => ⟨still.1, still.2 action List.mem_cons_self⟩
    have there : {} ∈ starts ∨ NeverFails hmac ∧ ∀ action ∈ rest, ¬ Moves action :=
      blank.imp_right fun still => ⟨still.1, fun a member => still.2 a (List.mem_cons_of_mem _ member)⟩
    obtain ⟨shown, rooted'⟩ := perform_rooted derived here genuine own rooted performed
    have genuine' : ∀ entry ∈ earlier ++ [(action, reply hmac action m)],
        Genuine (Descends starts) entry.1 entry.2 := by
      intro entry member
      rcases List.mem_append.mp member with before | now
      · exact genuine entry before
      · rw [List.mem_singleton.mp now]
        exact shown
    obtain ⟨genuineLater, rootedLast⟩ := ih there genuine' rooted' others closed'
    refine ⟨fun entry member => ?_, rootedLast⟩
    rcases List.mem_cons.mp member with rfl | after
    · exact shown
    · exact genuineLater entry after

theorem derivedStarts_inRegime {hmac : Hmac σ} {s : State} (descends : Descends (derivedStarts hmac) s) : InRegime s := by
  obtain ⟨start, ⟨key, nonce, info, st, st', derived⟩, k, rfl⟩ := descends
  obtain ⟨_, stateBlock, paramBlock, _, rfl⟩ := deriveState_ok derived
  exact iterate_inRegime (stateOf_inRegime _) k

/-- In every program that imports only what it exported itself, JSON without digit groups, every import
    succeeds whatever the crypto library answers, and every state that an object has, exports or draws words and
    bytes from is some number of steps after one that a seeding derived or after the zero state. The zero
    state takes a move or a library that fails: without them every such state is in the chaotic regime. -/
theorem closed_world {hmac : Hmac σ} {actions : List Action} {st : σ} {log : List (Action × Response)} {last : Memory σ}
    (done : Interleavings.perform (act hmac) actions (.start st) = some (log, last)) (closed : Closed [] log) :
    ((∀ entry ∈ log, Genuine (Descends (allStarts hmac)) entry.1 entry.2) ∧ AllRooted (allStarts hmac) last) ∧
      (NeverFails hmac → (∀ action ∈ actions, ¬ Moves action) →
        (∀ entry ∈ log, Genuine (fun s => Descends (derivedStarts hmac) s ∧ InRegime s) entry.1 entry.2) ∧
          AllRooted (derivedStarts hmac) last ∧
            ∀ address c, last.objects address = some c → InRegime c.state ∧ InRegime c.initialState) := by
  have start (starts : Set State) : AllRooted starts (.start st) := fun _ _ impossible => by cases impossible
  have none (starts : Set State) : ∀ entry ∈ ([] : List (Action × Response)), Genuine (Descends starts) entry.1 entry.2 :=
    fun _ impossible => absurd impossible List.not_mem_nil
  refine ⟨run_rooted (Set.subset_insert _ _) (Or.inl (Set.mem_insert _ _)) (none _) (start _) done closed,
    fun never still => ?_⟩
  obtain ⟨genuine, rooted⟩ := run_rooted (Set.Subset.refl _) (Or.inr ⟨never, still⟩) (none _) (start _) done closed
  refine ⟨fun entry member => ?_, rooted, fun address c live => ⟨?_, ?_⟩⟩
  · exact (genuine entry member).mono fun s descends => ⟨descends, derivedStarts_inRegime descends⟩
  · exact derivedStarts_inRegime (rooted address c live).state
  · exact derivedStarts_inRegime (.start (rooted address c live).resetPoint)

/-- A stream that is carried on by a second object. -/
def carryOver : List Action :=
  [.construct 0 [0x42] (List.replicate 12 1) [], .call 0 (.draw (.generate 3)), .call 0 .exportState,
    .construct 1 [0x42] (List.replicate 12 1) [],
    .call 1 (.importState (serializeBinary (step (derivedState referenceHmac [0x42] (List.replicate 12 1) [] [])))),
    .call 1 (.draw .next)]
theorem closed_world_carried : ∃ log last,
    Interleavings.perform (act (pureHmac referenceHmac)) carryOver (.start ()) = some (log, last) ∧
      (∀ entry ∈ log, Genuine (fun s => Descends (derivedStarts (pureHmac referenceHmac)) s ∧ InRegime s) entry.1 entry.2) ∧
        ∀ address c, last.objects address = some c → InRegime c.state ∧ InRegime c.initialState := by
  have exported : (Interleavings.perform (act (pureHmac referenceHmac)) carryOver (.start ())).map
      (fun done => (done.1.map Prod.snd)[2]?) = some (some (.blob (serializeBinary (step
        (derivedState referenceHmac [0x42] (List.replicate 12 1) [] []))))) := by
    decide +kernel
  obtain ⟨⟨log, last⟩, done, third⟩ := Option.map_eq_some_iff.mp exported
  have closed : Closed [] log := by
    obtain ⟨_, _, _, _, drawn, rfl⟩ := Interleavings.perform_cons.mp done
    obtain ⟨_, _, _, _, given, rfl⟩ := Interleavings.perform_cons.mp drawn
    obtain ⟨_, _, _, _, built, rfl⟩ := Interleavings.perform_cons.mp given
    obtain ⟨_, _, _, _, taken, rfl⟩ := Interleavings.perform_cons.mp built
    obtain ⟨_, _, _, _, again, rfl⟩ := Interleavings.perform_cons.mp taken
    obtain ⟨_, _, _, _, ended, rfl⟩ := Interleavings.perform_cons.mp again
    cases ended
    have blob := Option.some.inj third
    exact ⟨trivial, trivial, trivial, trivial, ⟨0, List.mem_append_left _ (List.mem_append_right _
      (List.mem_singleton.mpr (Prod.ext rfl blob.symm)))⟩, trivial, trivial⟩
  have still : ∀ action ∈ carryOver, ¬ Moves action := by simp [carryOver, Moves]
  obtain ⟨genuine, _, regime⟩ := (closed_world done closed).2 (pureHmac_computes referenceHmac).neverFails still
  exact ⟨log, last, done, genuine, regime⟩

end Eahcm.Lineages
