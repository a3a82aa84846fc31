import Eahcm.Threads

/-!
Who gets which byte of keystream. The books beside a program list the states that its seedings derive, by
number, and note for every object whose stream it holds and which bytes of it are still to come; moves
hand the holding over, a seeding that fails and a move leave one of the all-zero state, which has no
number. The bytes that calls return are the ones that the books say (`audit_values`); each is of a
numbered seeding unless an object was wiped (`audit_honest`), and a program that neither resets nor
imports gets no byte of a numbered seeding twice, through however many objects the stream is moved
(`keystream_once`).
-/
namespace Eahcm.Allotments
open Eahcm.Types Eahcm.States Eahcm.KeySchedule Eahcm.LittleEndian Eahcm.WordTaps Eahcm.Ciphers Eahcm.Streams
open Eahcm.Sessions Eahcm.Objects Eahcm.Lifetimes Eahcm.Facades Eahcm.Threads
open Eahcm.WordTaps.WordSource (mapTap mapAnswer Image flow_serve)
variable {σ : Type}

/-- Byte `position` of the keystream that starts at a state. -/
def streamByte (start : State) (position : Nat) : Byte := byteAt (streamWord start (position / 8)) (position % 8)

/-- Where a byte comes from: the keystream of a seeding, or that of a wiped object, which has no
    number; or a wiped buffer. -/
inductive Mark
  | keystream (seeding : Option Nat) (start : State) (position : Nat)
  | zero

def Mark.value : Mark → Byte
  | .keystream _ start position => streamByte start position
  | .zero => 0
/-- The seeding and the position. -/
def Mark.place : Mark → Option (Nat × Nat)
  | .keystream (some n) _ position => some (n, position)
  | .keystream none _ _ => none
  | .zero => none
def places (given : List Mark) : List (Nat × Nat) := given.filterMap Mark.place

/-- The keystream as positions: word `k` is its eight bytes. -/
def marks (seeding : Option Nat) (start : State) : WordSource Nat Nat Mark where
  draw k := (k, k + 1)
  bytes k := (List.range 8).map fun j => .keystream seeding start (8 * k + j)
  width := 8
  width_pos := Nat.zero_lt_succ 7
  bytes_length _ := (List.length_map _).trans List.length_range

theorem marks_image (seeding : Option Nat) (start : State) :
    Image (marks seeding start) keystream (fun k => step^[k] start) (streamWord start) Mark.value where
  draw k := by
    change (extract (step (step^[k] start)), step (step^[k] start)) = (extract (step^[k + 1] start), step^[k + 1] start)
    rw [Function.iterate_succ_apply']
  bytes k := by
    change toBytes 8 (streamWord start k) = ((List.range 8).map fun j => Mark.keystream seeding start (8 * k + j)).map _
    rw [toBytes, List.map_map]
    refine List.map_congr_left fun j inside => ?_
    have below := List.mem_range.mp inside
    have word : (8 * k + j) / 8 = k := by omega
    have offset : (8 * k + j) % 8 = j := by omega
    simp only [Function.comp_apply, Mark.value, streamByte, word, offset]
  width := rfl

theorem advance_marks (seeding : Option Nat) (start : State) (count k : Nat) :
    (marks seeding start).advance count k = k + count := by
  induction count with
  | zero => rfl
  | succ count ih =>
    rw [WordSource.advance_succ, ih]
    rfl
theorem supply_marks (seeding : Option Nat) (start : State) (count k : Nat) :
    (marks seeding start).supply count k = (List.range (8 * count)).map fun j => .keystream seeding start (8 * k + j) := by
  induction count with
  | zero => rfl
  | succ count ih =>
    have split : List.range (8 * count + 8) = List.range (8 * count) ++ (List.range 8).map (8 * count + ·) :=
      List.range_add
    rw [WordSource.supply_add, ih, advance_marks, Nat.mul_succ, split, List.map_append, List.map_map]
    congr 1
    simp [WordSource.supply, WordSource.wordAt, marks, Function.comp_def, Nat.mul_add, Nat.add_assoc]

/-- What an object holds: the seeding, the state its stream starts at, and the tap over its positions. -/
structure Holding where
  seeding : Option Nat
  start : State
  tap : Tap Nat Mark

/-- The holding of an object that was moved from. -/
def idle : Holding := ⟨none, {}, ⟨0, []⟩⟩
def Holding.source (h : Holding) : WordSource Nat Nat Mark := marks h.seeding h.start
def Holding.draw (d : Draw) (h : Holding) : List Mark × Holding :=
  (h.source.flow (h.source.serve (tapRequest d) h.tap).1, { h with tap := (h.source.serve (tapRequest d) h.tap).2 })
def Holding.restart (h : Holding) : Holding := { h with tap := ⟨0, []⟩ }
def Holding.wiped (h : Holding) : Holding := ⟨none, {}, ⟨0, List.replicate h.tap.pending.length .zero⟩⟩

/-- The states that seedings derived so far, and what the objects hold. -/
structure Books where
  started : List State
  holdings : Nat → Option Holding

def Books.opened : Books := ⟨[], fun _ => none⟩
def Books.seedings (b : Books) : Nat := b.started.length
def Books.set (b : Books) (address : Nat) (h : Option Holding) : Books :=
  { b with holdings := Function.update b.holdings address h }
def Books.seed (b : Books) (address : Nat) (s : State) : Books :=
  ⟨b.started ++ [s], Function.update b.holdings address (some ⟨some b.seedings, s, ⟨0, []⟩⟩)⟩
def Books.move (b : Books) (address source : Nat) : Books :=
  { b with holdings := Function.update (Function.update b.holdings source (some idle)) address (b.holdings source) }

/-- The state that the crypto library lets a seeding derive. -/
def derives (hmac : Hmac σ) (key nonce info : Bytes) (st : σ) : Option State :=
  match (deriveState hmac key nonce [] info st).1 with
  | .ok s => some s
  | .error _ => none

/-- The bytes that an action hands out, and the books after it. -/
def allot (hmac : Hmac σ) (action : Action) (m : Memory σ) (b : Books) : List Mark × Books :=
  match action with
  | .construct address key nonce info =>
    match derives hmac key nonce info m.library with
    | some s => ([], b.seed address s)
    | none => ([], b)
  | .call address (.draw d) =>
    match b.holdings address with
    | some h => ((h.draw d).1, b.set address (some (h.draw d).2))
    | none => ([], b)
  | .call address .reset => ([], b.set address ((b.holdings address).map Holding.restart))
  | .call _ _ => ([], b)
  | .reseed address key nonce info =>
    if key = [] then ([], b)
    else
      match derives hmac key nonce info m.library with
      | some s => ([], b.seed address s)
      | none => ([], b.set address ((b.holdings address).map Holding.wiped))
  | .moveConstruct address source => ([], b.move address source)
  | .moveAssign address source => ([], if address = source then b else b.move address source)
  | .destroy address => ([], b.set address none)

theorem seedings_seed (b : Books) (address : Nat) (s : State) : (b.seed address s).seedings = b.seedings + 1 :=
  List.length_append

/-- An action with its answer and the bytes that the books say it hands out. -/
def audit (hmac : Hmac σ) (action : Action) (p : Memory σ × Books) : Option ((Response × List Mark) × Memory σ × Books) :=
  (act hmac action p.1).map fun done => ((done.1, (allot hmac action p.1 p.2).1), done.2, (allot hmac action p.1 p.2).2)

/-- The bytes that an answer hands out. -/
def handedOut : Response → Bytes
  | .bytes output => output
  | .word word => toBytes 8 word
  | _ => []

/-! ## The books are right -/

/-- A cipher stands where its holding says. -/
structure Follows (h : Holding) (c : Cipher) : Prop where
  initialState : c.initialState = h.start
  tap : Ciphers.tap c = mapTap (fun k => step^[k] h.start) Mark.value h.tap
  bound : c.bufferPos ≤ 8
/-- Every object has a holding, and stands where it says. -/
def Agree (b : Books) (m : Memory σ) : Prop := ∀ address, Option.Rel Follows (b.holdings address) (m.objects address)

theorem follows_start (n : Option Nat) (s : State) (key nonce info : Bytes) :
    Follows ⟨n, s, ⟨0, []⟩⟩ (seededWith s key nonce info) where
  initialState := rfl
  tap := by rw [Ciphers.tap, pending_nil rfl]; rfl
  bound := Nat.le_refl 8
theorem follows_idle : Follows idle {} where
  initialState := rfl
  tap := by rw [Ciphers.tap, pending_nil rfl]; rfl
  bound := Nat.le_refl 8
theorem Follows.restart {h : Holding} {c : Cipher} (follows : Follows h c) : Follows h.restart (reset c) where
  initialState := follows.initialState
  tap := by
    rw [Ciphers.tap, pending_nil rfl]
    simp only [mapTap, Holding.restart, Function.iterate_zero, id_eq, List.map_nil, reset, follows.initialState]
  bound := Nat.le_refl 8
theorem Follows.wiped {h : Holding} {c : Cipher} (follows : Follows h c) (key nonce info : Bytes) :
    Follows h.wiped (reseedWiped c key nonce info) where
  initialState := rfl
  tap := by
    have views := view_reseedWiped c key nonce info
    have pending' := congrArg View.pending views
    have length := congrArg (fun t => t.pending.length) follows.tap
    simp only [Ciphers.tap, mapTap, List.length_map] at length
    simp only [view, View.wiped, length] at pending'
    simp only [Ciphers.tap, mapTap, Holding.wiped, pending', List.map_replicate, Mark.value]
    rfl
  bound := follows.bound

/-- A draw from a cipher hands out the bytes that its holding says. -/
theorem Follows.draw {h : Holding} {c : Cipher} (follows : Follows h c) (d : Draw) :
    handedOut (draw d c).1 = (h.draw d).1.map Mark.value ∧ Follows (h.draw d).2 (draw d c).2 := by
  obtain ⟨answer, stands⟩ := draw_simulates d c (Ciphers.tap c) ⟨rfl, follows.bound⟩
  have image := (marks_image h.seeding h.start).serve (tapRequest d) h.tap
  rw [← follows.tap] at image
  have same := stands.same
  rw [image] at answer same
  have kept := (draw_seed d follows.bound).initialState
  refine ⟨?_, kept.trans follows.initialState, same.symm, stands.bound⟩
  rw [answer]
  change _ = ((marks h.seeding h.start).flow ((marks h.seeding h.start).serve (tapRequest d) h.tap).1).map Mark.value
  rcases ((marks h.seeding h.start).serve (tapRequest d) h.tap).1 with given | k
  · rfl
  · exact (marks_image h.seeding h.start).bytes k

/-- The action puts no foreign state into an object. -/
def Imports : Action → Prop
  | .call _ (.importState _) => True
  | .call _ (.importStateJson _) => True
  | _ => False

theorem agree_update {b : Books} {m : Memory σ} (agree : Agree b m) (address : Nat) {h : Option Holding}
    {c : Option Cipher} (related : Option.Rel Follows h c) :
    ∀ other, Option.Rel Follows (Function.update b.holdings address h other) (Function.update m.objects address c other) := by
  intro other
  rw [Function.update_apply, Function.update_apply]
  by_cases same : other = address
  · rw [if_pos same, if_pos same]
    exact related
  · rw [if_neg same, if_neg same]
    exact agree other
theorem Agree.holding {b : Books} {m : Memory σ} (agree : Agree b m) {address : Nat} {c : Cipher}
    (live : m.objects address = some c) : ∃ h, b.holdings address = some h ∧ Follows h c := by
  have related := agree address
  rw [live] at related
  rcases held : b.holdings address with _ | h
  · rw [held] at related
    cases related
  · rw [held] at related
    cases related with
    | some follows => exact ⟨h, rfl, follows⟩
theorem Agree.unchanged {b : Books} {m : Memory σ} (agree : Agree b m) {address : Nat} {c : Cipher}
    (live : m.objects address = some c) (library : σ) (released : List Bytes) :
    Agree b ⟨Function.update m.objects address (some c), library, released⟩ := by
  intro other
  rw [← live, Function.update_eq_self]
  exact agree other
theorem agree_moved {b : Books} {m : Memory σ} (agree : Agree b m) (address : Nat) {source : Nat} {a : Cipher}
    (live : m.objects source = some a) (released : List Bytes) :
    Agree (b.move address source) (m.moved address source ⟨a, {}, released⟩) := by
  obtain ⟨h, held, follows⟩ := agree.holding live
  intro other
  rw [objects_moved, Books.move, held]
  simp only [Function.update_apply]
  split
  · exact .some follows
  · split
    · exact .some follows_idle
    · exact agree other

theorem derives_run (hmac : Hmac σ) {key : Bytes} (nonce info : Bytes) (present : key ≠ []) (st : σ) :
    derives hmac key nonce info st =
      (exchanges hmac key nonce [] info st).1.map fun blocks => stateOf (paramsOf blocks.1 blocks.2) := by
  rw [derives, deriveState_run hmac key nonce [] info present]
  rcases exchanges hmac key nonce [] info st with ⟨_ | ⟨stateBlock, paramBlock⟩, st'⟩
  · rfl
  · rfl

/-- A seeding that derives no state is answered by the failure of the library. -/
theorem reply_failed {hmac : Hmac σ} {address : Nat} {key nonce info : Bytes} (present : key ≠ []) {m m' : Memory σ}
    (failed : derives hmac key nonce info m.library = none)
    (done : Lifetimes.perform hmac (.reseed address key nonce info) m = some m') :
    reply hmac (.reseed address key nonce info) m = .thrown hmacFailed := by
  obtain ⟨c, live, _⟩ := perform_reseed done
  rw [derives_run hmac nonce info present] at failed
  rw [reply, live, Option.map_some, Option.getD_some, reseedBody_run]
  rcases reseed_cases hmac key nonce info c m.library with ⟨rfl, _⟩ | ⟨_, _, _, answered, _, _⟩ | ⟨_, _, _, ran⟩
  · exact absurd rfl present
  · rw [answered] at failed
    cases failed
  · rw [ran]
    rfl

/-- After an action that imports nothing, the books are right, and it handed out what they say. -/
theorem audit_step {hmac : Hmac σ} {action : Action} {m m' : Memory σ} {b : Books} (agree : Agree b m)
    (own : ¬ Imports action) (done : Lifetimes.perform hmac action m = some m') :
    handedOut (reply hmac action m) = (allot hmac action m b).1.map Mark.value ∧ Agree (allot hmac action m b).2 m' := by
  cases action with
  | construct address key nonce info =>
    have silent : handedOut (reply hmac (.construct address key nonce info) m) = [] := by
      rw [reply]
      rcases (constructorBody hmac key nonce info ⟨{}, m.library, m.released⟩).1 with e | ⟨⟩ <;> rfl
    rw [silent]
    rcases perform_construct done with ⟨rfl, rfl⟩ | ⟨blocks, st, present, answered, rfl⟩ | ⟨st, present, failed, rfl⟩
    · exact ⟨rfl, agree⟩
    · have derived := derives_run hmac nonce info present m.library
      rw [answered] at derived
      simp only [allot, derived, Option.map_some]
      exact ⟨rfl, agree_update agree address (.some (follows_start _ _ _ _ _))⟩
    · have derived := derives_run hmac nonce info present m.library
      rw [failed] at derived
      simp only [allot, derived, Option.map_none]
      exact ⟨rfl, agree⟩
  | call address call =>
    obtain ⟨c, live, rfl⟩ := perform_call done
    obtain ⟨h, held, follows⟩ := agree.holding live
    simp only [reply, live, Option.map_some, Option.getD_some]
    cases call with
    | draw d =>
      obtain ⟨bytes, next⟩ := follows.draw d
      simp only [allot, held]
      exact ⟨bytes, agree_update agree address (.some next)⟩
    | reset =>
      simp only [allot, held, Option.map_some]
      exact ⟨rfl, agree_update agree address (.some follows.restart)⟩
    | exportState => exact ⟨rfl, agree.unchanged live _ _⟩
    | exportStateJson np pretty => exact ⟨rfl, agree.unchanged live _ _⟩
    | importState data => exact absurd trivial own
    | importStateJson json => exact absurd trivial own
  | reseed address key nonce info =>
    obtain ⟨c, live, rfl⟩ := perform_reseed done
    obtain ⟨h, held, follows⟩ := agree.holding live
    have silent : handedOut (reply hmac (.reseed address key nonce info) m) = [] := by
      rw [reply, live, Option.map_some, Option.getD_some]
      rcases (reseedBody hmac key nonce info ⟨c, m.library, m.released⟩).1 with e | ⟨⟩ <;> rfl
    rw [silent]
    rcases reseed_cases hmac key nonce info c m.library with
      ⟨rfl, ran⟩ | ⟨_, _, _, answered, present, ran⟩ | ⟨_, failed, present, ran⟩
    · simp only [allot, if_true, ran]
      exact ⟨rfl, agree.unchanged live _ _⟩
    · have derived := derives_run hmac nonce info present m.library
      rw [answered] at derived
      simp only [allot, derived, Option.map_some, if_neg present, ran]
      exact ⟨rfl, agree_update agree address (.some (follows_start _ _ _ _ _))⟩
    · have derived := derives_run hmac nonce info present m.library
      rw [failed] at derived
      simp only [allot, derived, Option.map_none, if_neg present, ran, held, Option.map_some]
      exact ⟨rfl, agree_update agree address (.some (follows.wiped _ _ _))⟩
  | moveConstruct address source =>
    obtain ⟨a, _, live, rfl⟩ := perform_moveConstruct done
    exact ⟨rfl, agree_moved agree address live _⟩
  | moveAssign address source =>
    obtain ⟨target, a, _, live, ⟨same, rfl⟩ | ⟨different, rfl⟩⟩ := perform_moveAssign done
    · simp only [allot, if_pos same]
      exact ⟨rfl, agree⟩
    · simp only [allot, if_neg different]
      exact ⟨rfl, agree_moved agree address live _⟩
  | destroy address =>
    obtain ⟨c, live, rfl⟩ := perform_destroy done
    exact ⟨rfl, agree_update agree address .none⟩

/-! ## No byte twice -/

theorem places_append (given more : List Mark) : places (given ++ more) = places given ++ places more :=
  List.filterMap_append
theorem places_zeros (count : Nat) : places (List.replicate count .zero) = [] := by
  rw [places, List.filterMap_eq_nil_iff]
  intro mark member
  rw [List.eq_of_mem_replicate member]
  rfl

/-- The words that a holding draws are from the place where it stands on, in order. -/
theorem places_supply (h : Holding) (words : Nat) :
    (places (h.source.supply words h.tap.source)).Nodup ∧
      ∀ q ∈ places (h.source.supply words h.tap.source), h.seeding = some q.1 ∧ 8 * h.tap.source ≤ q.2 ∧
        q.2 < 8 * (h.tap.source + words) := by
  rw [Holding.source, supply_marks]
  rcases h.seeding with _ | n
  · have none : places ((List.range (8 * words)).map fun j => .keystream none h.start (8 * h.tap.source + j)) = [] := by
      rw [places, List.filterMap_eq_nil_iff]
      intro mark member
      obtain ⟨j, _, rfl⟩ := List.mem_map.mp member
      rfl
    rw [none]
    exact ⟨List.nodup_nil, fun q member => absurd member List.not_mem_nil⟩
  · have all : places ((List.range (8 * words)).map fun j => .keystream (some n) h.start (8 * h.tap.source + j)) =
        (List.range (8 * words)).map fun j => (n, 8 * h.tap.source + j) := by
      rw [places, List.filterMap_map, ← List.filterMap_eq_map]
      rfl
    rw [all]
    constructor
    · refine List.Nodup.map (fun i j same => ?_) List.nodup_range
      have positions := congrArg Prod.snd same
      simpa using positions
    · intro q member
      obtain ⟨j, inside, rfl⟩ := List.mem_map.mp member
      have below := List.mem_range.mp inside
      refine ⟨rfl, by simp, ?_⟩
      simp only
      omega

/-- A draw hands out and keeps what was to come and the words that it draws. -/
theorem draw_flow (h : Holding) (d : Draw) : ∃ words,
    (places (h.draw d).1 ++ places (h.draw d).2.tap.pending).Perm
        (places h.tap.pending ++ places (h.source.supply words h.tap.source)) ∧
      (h.draw d).2.tap.source = h.tap.source + words := by
  obtain ⟨words, flow, source⟩ := flow_serve h.source (tapRequest d) h.tap
  refine ⟨words, ?_, source.trans (advance_marks _ _ _ _)⟩
  rw [← places_append, ← places_append]
  exact flow.filterMap _

/-- The books hold each stream once, and nothing that is still to come, of what is drawn or of what is
    not, was ever handed out. -/
structure Sound (b : Books) (given : List Mark) : Prop where
  numbered : ∀ a h n, b.holdings a = some h → h.seeding = some n → n < b.seedings
  sole : ∀ a a' h h' n, b.holdings a = some h → b.holdings a' = some h' → h.seeding = some n → h'.seeding = some n →
    a = a'
  own : ∀ a h, b.holdings a = some h → ∀ q ∈ places h.tap.pending, h.seeding = some q.1 ∧ q.2 < 8 * h.tap.source
  past : ∀ q ∈ places given, q.1 < b.seedings
  behind : ∀ a h, b.holdings a = some h → ∀ q ∈ places given, h.seeding = some q.1 → q.2 < 8 * h.tap.source
  once : (places given).Nodup
  unspent : ∀ a h, b.holdings a = some h → (places given ++ places h.tap.pending).Nodup

theorem sound_opened : Sound .opened [] := by
  constructor <;> simp [Books.opened, places]

theorem update_cases {holdings : Nat → Option Holding} {a i : Nat} {new : Option Holding} {h : Holding}
    (held : Function.update holdings a new i = some h) : i = a ∧ new = some h ∨ i ≠ a ∧ holdings i = some h := by
  by_cases same : i = a
  · rw [same, Function.update_self] at held
    exact Or.inl ⟨same, held⟩
  · rw [Function.update_of_ne same] at held
    exact Or.inr ⟨same, held⟩

/-- What is known of a holding once it has drawn. -/
theorem Sound.drawn {b : Books} {given : List Mark} (sound : Sound b given) {a : Nat} {h : Holding}
    (held : b.holdings a = some h) (d : Draw) :
    (places given ++ (places (h.draw d).1 ++ places (h.draw d).2.tap.pending)).Nodup ∧
      h.tap.source ≤ (h.draw d).2.tap.source ∧
        ∀ q ∈ places (h.draw d).1 ++ places (h.draw d).2.tap.pending,
          h.seeding = some q.1 ∧ q.2 < 8 * (h.draw d).2.tap.source := by
  obtain ⟨words, flow, source⟩ := draw_flow h d
  obtain ⟨distinct, located⟩ := places_supply h words
  rw [source]
  refine ⟨?_, Nat.le_add_right _ _, fun q member => ?_⟩
  · rw [(flow.append_left _).nodup_iff, ← List.append_assoc, List.nodup_append]
    refine ⟨sound.unspent a h held, distinct, fun q before q' after same => ?_⟩
    subst same
    obtain ⟨mine, far, _⟩ := located q after
    rcases List.mem_append.mp before with spent | kept
    · have := sound.behind a h held q spent mine
      omega
    · have := (sound.own a h held q kept).2
      omega
  · rcases List.mem_append.mp (flow.mem_iff.mp member) with kept | drawn
    · obtain ⟨mine, near⟩ := sound.own a h held q kept
      exact ⟨mine, by omega⟩
    · obtain ⟨mine, _, near⟩ := located q drawn
      exact ⟨mine, near⟩

/-- Draws keep the books sound. -/
theorem Sound.draw {b : Books} {given : List Mark} (sound : Sound b given) {a : Nat} {h : Holding}
    (held : b.holdings a = some h) (d : Draw) : Sound (b.set a (some (h.draw d).2)) (given ++ (h.draw d).1) := by
  obtain ⟨distinct, forward, located⟩ := sound.drawn held d
  have here {other : Nat} {h' : Holding} (held' : (b.set a (some (h.draw d).2)).holdings other = some h') :
      other = a ∧ h' = (h.draw d).2 ∨ other ≠ a ∧ b.holdings other = some h' :=
    (update_cases held').imp_left fun ⟨same, new⟩ => ⟨same, (Option.some.inj new).symm⟩
  have given' {q : Nat × Nat} (member : q ∈ places (given ++ (h.draw d).1)) :
      q ∈ places given ∨ h.seeding = some q.1 ∧ q.2 < 8 * (h.draw d).2.tap.source := by
    rw [places_append] at member
    exact (List.mem_append.mp member).imp_right fun out => located q (List.mem_append_left _ out)
  constructor
  case numbered =>
    intro other h' n held' numbered
    rcases here held' with ⟨_, rfl⟩ | ⟨_, old⟩
    · exact sound.numbered a h n held numbered
    · exact sound.numbered other h' n old numbered
  case sole =>
    intro first second h₁ h₂ n held₁ held₂ numbered₁ numbered₂
    rcases here held₁ with ⟨rfl, rfl⟩ | ⟨_, old₁⟩ <;> rcases here held₂ with ⟨same, rfl⟩ | ⟨_, old₂⟩
    · exact same.symm
    · exact sound.sole first second h h₂ n held old₂ numbered₁ numbered₂
    · exact same ▸ sound.sole first second h₁ h n old₁ (same ▸ held) numbered₁ numbered₂
    · exact sound.sole first second h₁ h₂ n old₁ old₂ numbered₁ numbered₂
  case own =>
    intro other h' held' q member
    rcases here held' with ⟨_, rfl⟩ | ⟨_, old⟩
    · exact located q (List.mem_append_right _ member)
    · exact sound.own other h' old q member
  case past =>
    intro q member
    rcases given' member with old | ⟨mine, _⟩
    · exact sound.past q old
    · exact sound.numbered a h q.1 held mine
  case behind =>
    intro other h' held' q member numbered
    rcases here held' with ⟨_, rfl⟩ | ⟨different, old⟩
    · rcases given' member with before | ⟨_, near⟩
      · have := sound.behind a h held q before numbered
        omega
      · exact near
    · rcases given' member with before | ⟨mine, _⟩
      · exact sound.behind other h' old q before numbered
      · exact absurd (sound.sole other a h' h q.1 old held numbered mine) different
  case once =>
    rw [places_append]
    rw [← List.append_assoc] at distinct
    exact (List.nodup_append.mp distinct).1
  case unspent =>
    intro other h' held'
    rw [places_append]
    rcases here held' with ⟨_, rfl⟩ | ⟨different, old⟩
    · rw [List.append_assoc]
      exact distinct
    · rw [← List.append_assoc] at distinct
      obtain ⟨spent, pending, apart⟩ := List.nodup_append.mp (sound.unspent other h' old)
      refine List.nodup_append.mpr ⟨(List.nodup_append.mp distinct).1, pending, fun q before q' after same => ?_⟩
      subst same
      rcases List.mem_append.mp before with old' | new
      · exact apart q old' q after rfl
      · have mine := (located q (List.mem_append_left _ new)).1
        have theirs := (sound.own other h' old q after).1
        exact different (sound.sole other a h' h q.1 old held theirs mine)

/-- A holding of no numbered stream, with none of its bytes to come. -/
def Blank (h : Holding) : Prop := h.seeding = none ∧ places h.tap.pending = []

/-- Holdings that are moved, each to one object, dropped, or replaced by blank ones stay sound. -/
theorem Sound.rearranged {b b' : Books} {given : List Mark} (sound : Sound b given) (seedings : b'.seedings = b.seedings)
    (origin : Nat → Nat)
    (comes : ∀ i h, b'.holdings i = some h → Blank h ∨ b.holdings (origin i) = some h)
    (apart : ∀ i j h h' n, b'.holdings i = some h → b'.holdings j = some h' → h.seeding = some n → h'.seeding = some n →
      origin i = origin j → i = j) : Sound b' given := by
  have numbered {i : Nat} {h : Holding} {n : Nat} (held : b'.holdings i = some h) (number : h.seeding = some n) :
      b.holdings (origin i) = some h := by
    rcases comes i h held with ⟨unnumbered, _⟩ | old
    · rw [unnumbered] at number
      cases number
    · exact old
  constructor
  case numbered =>
    intro i h n held number
    rw [seedings]
    exact sound.numbered _ h n (numbered held number) number
  case sole =>
    intro i j h h' n held held' number number'
    exact apart i j h h' n held held' number number'
      (sound.sole _ _ h h' n (numbered held number) (numbered held' number') number number')
  case own =>
    intro i h held q member
    rcases comes i h held with ⟨_, none⟩ | old
    · rw [none] at member
      cases member
    · exact sound.own _ h old q member
  case past =>
    rw [seedings]
    exact sound.past
  case behind =>
    intro i h held q member number
    exact sound.behind _ h (numbered held number) q member number
  case once => exact sound.once
  case unspent =>
    intro i h held
    rcases comes i h held with ⟨_, none⟩ | old
    · rw [none, List.append_nil]
      exact sound.once
    · exact sound.unspent _ h old

theorem Sound.set {b : Books} {given : List Mark} (sound : Sound b given) (a : Nat) {new : Option Holding}
    (blank : ∀ h, new = some h → Blank h) : Sound (b.set a new) given := by
  refine sound.rearranged rfl id (fun i h held => ?_) (fun i j _ _ _ _ _ _ _ same => same)
  rcases update_cases held with ⟨_, put⟩ | ⟨_, old⟩
  · exact Or.inl (blank h put)
  · exact Or.inr old

theorem blank_wiped (h : Holding) : Blank h.wiped := ⟨rfl, places_zeros _⟩

theorem Sound.move {b : Books} {given : List Mark} (sound : Sound b given) (address source : Nat) :
    Sound (b.move address source) given := by
  have cases' {i : Nat} {h : Holding} (held : (b.move address source).holdings i = some h) :
      i = address ∧ b.holdings source = some h ∨ i ≠ address ∧ i = source ∧ h = idle ∨
        i ≠ address ∧ i ≠ source ∧ b.holdings i = some h := by
    rcases update_cases held with ⟨same, put⟩ | ⟨notAddress, old⟩
    · exact Or.inl ⟨same, put⟩
    · rcases update_cases old with ⟨same, put⟩ | ⟨notSource, kept⟩
      · exact Or.inr (Or.inl ⟨notAddress, same, (Option.some.inj put).symm⟩)
      · exact Or.inr (Or.inr ⟨notAddress, notSource, kept⟩)
  refine sound.rearranged rfl (fun i => if i = address then source else i) (fun i h held => ?_) ?_
  · rcases cases' held with ⟨same, moved⟩ | ⟨_, _, rfl⟩ | ⟨notAddress, _, kept⟩
    · exact Or.inr (by rw [if_pos same]; exact moved)
    · exact Or.inl ⟨rfl, rfl⟩
    · exact Or.inr (by rw [if_neg notAddress]; exact kept)
  · intro i j h h' n held held' number number' same
    rcases cases' held with ⟨here, _⟩ | ⟨_, _, rfl⟩ | ⟨notAddress, notSource, _⟩
    · rcases cases' held' with ⟨here', _⟩ | ⟨_, _, rfl⟩ | ⟨notAddress', notSource', _⟩
      · exact here.trans here'.symm
      · cases number'
      · rw [if_pos here, if_neg notAddress'] at same
        exact absurd same.symm notSource'
    · cases number
    · rcases cases' held' with ⟨here', _⟩ | ⟨_, _, rfl⟩ | ⟨notAddress', _, _⟩
      · rw [if_neg notAddress, if_pos here'] at same
        exact absurd same notSource
      · cases number'
      · rwa [if_neg notAddress, if_neg notAddress'] at same

theorem Sound.seed {b : Books} {given : List Mark} (sound : Sound b given) (a : Nat) (s : State) :
    Sound (b.seed a s) given := by
  constructor
  case numbered =>
    intro i h n held number
    rcases update_cases held with ⟨_, put⟩ | ⟨_, old⟩
    · cases put
      cases number
      rw [seedings_seed]
      exact Nat.lt_succ_self _
    · rw [seedings_seed]
      exact Nat.lt_succ_of_lt (sound.numbered i h n old number)
  case sole =>
    intro i j h h' n held held' number number'
    rcases update_cases held with ⟨here, put⟩ | ⟨_, old⟩ <;> rcases update_cases held' with ⟨here', put'⟩ | ⟨_, old'⟩
    · exact here.trans here'.symm
    · cases put
      cases number
      exact absurd (sound.numbered j h' _ old' number') (Nat.lt_irrefl _)
    · cases put'
      cases number'
      exact absurd (sound.numbered i h _ old number) (Nat.lt_irrefl _)
    · exact sound.sole i j h h' n old old' number number'
  case own =>
    intro i h held q member
    rcases update_cases held with ⟨_, put⟩ | ⟨_, old⟩
    · cases put
      cases member
    · exact sound.own i h old q member
  case past =>
    rw [seedings_seed]
    exact fun q member => Nat.lt_succ_of_lt (sound.past q member)
  case behind =>
    intro i h held q member number
    rcases update_cases held with ⟨_, put⟩ | ⟨_, old⟩
    · cases put
      have below := sound.past q member
      rw [← Option.some.inj number] at below
      exact absurd below (Nat.lt_irrefl _)
    · exact sound.behind i h old q member number
  case once => exact sound.once
  case unspent =>
    intro i h held
    rcases update_cases held with ⟨_, put⟩ | ⟨_, old⟩
    · cases put
      rw [show places ([] : List Mark) = [] from rfl, List.append_nil]
      exact sound.once
    · exact sound.unspent i h old

/-- The action goes back to a reset point. -/
def Rewinds : Action → Prop
  | .call _ .reset => True
  | _ => False

/-- An action that does not go back keeps the books sound. -/
theorem allot_sound (hmac : Hmac σ) {action : Action} (forward : ¬ Rewinds action) (m : Memory σ) {b : Books}
    {given : List Mark} (sound : Sound b given) :
    Sound (allot hmac action m b).2 (given ++ (allot hmac action m b).1) := by
  have same {b' : Books} (sound' : Sound b' given) : Sound b' (given ++ []) := by
    rw [List.append_nil]
    exact sound'
  cases action with
  | construct address key nonce info =>
    rw [allot]
    rcases derives hmac key nonce info m.library with _ | s
    · exact same sound
    · exact same (sound.seed address s)
  | call address call =>
    cases call with
    | draw d =>
      rw [allot]
      rcases held : b.holdings address with _ | h
      · exact same sound
      · exact sound.draw held d
    | reset => exact absurd trivial forward
    | exportState => exact same sound
    | exportStateJson np pretty => exact same sound
    | importState data => exact same sound
    | importStateJson json => exact same sound
  | reseed address key nonce info =>
    rw [allot]
    by_cases empty : key = []
    · rw [if_pos empty]
      exact same sound
    · rw [if_neg empty]
      rcases derives hmac key nonce info m.library with _ | s
      · refine same (sound.set address fun h wiped => ?_)
        obtain ⟨old, _, rfl⟩ := Option.map_eq_some_iff.mp wiped
        exact blank_wiped old
      · exact same (sound.seed address s)
  | moveConstruct address source => exact same (sound.move address source)
  | moveAssign address source =>
    rw [allot]
    by_cases self : address = source
    · rw [if_pos self]
      exact same sound
    · rw [if_neg self]
      exact same (sound.move address source)
  | destroy address => exact same (sound.set address fun h impossible => by cases impossible)

/-- An action, with its answer, that leaves a wiped object: a move, or a seeding that the crypto library
    failed. -/
def Wipes : Action × Response → Prop
  | (.moveConstruct _ _, _) => True
  | (.moveAssign address source, _) => address ≠ source
  | (.reseed _ _ _ _, answer) => answer = .thrown hmacFailed
  | _ => False

/-- Where a stream starts: at the state that its seeding derived or, if it has no number, at the zeros of
    a wiped object. -/
def StartsAt (started : List State) (wiped : Prop) : Option Nat → State → Prop
  | some n, start => started[n]? = some start
  | none, start => wiped ∧ start = {}
/-- The books bear the mark out. -/
def Mark.Borne (started : List State) (wiped : Prop) : Mark → Prop
  | .keystream seeding start _ => StartsAt started wiped seeding start
  | .zero => wiped
structure Holding.Borne (started : List State) (wiped : Prop) (h : Holding) : Prop where
  start : StartsAt started wiped h.seeding h.start
  pending : ∀ mark ∈ h.tap.pending, mark.Borne started wiped

/-- The books list what seedings derived, and bear out all marks, those handed out and those to come. -/
structure Honest (hmac : Hmac σ) (wiped : Prop) (b : Books) (given : List Mark) : Prop where
  derived : ∀ s ∈ b.started, ∃ key nonce info st, derives hmac key nonce info st = some s
  given : ∀ mark ∈ given, mark.Borne b.started wiped
  holdings : ∀ a h, b.holdings a = some h → h.Borne b.started wiped

theorem honest_opened (hmac : Hmac σ) (wiped : Prop) : Honest hmac wiped .opened [] := by
  constructor <;> simp [Books.opened]

section
variable {started : List State} {wiped : Prop}

/-- A new seeding changes nothing of the old ones. -/
theorem StartsAt.later {seeding : Option Nat} {start : State} (starts : StartsAt started wiped seeding start) (s : State) :
    StartsAt (started ++ [s]) wiped seeding start := by
  cases seeding with
  | none => exact starts
  | some n =>
    obtain ⟨inside, _⟩ := List.getElem?_eq_some_iff.mp starts
    exact (List.getElem?_append_left inside).trans starts
theorem Mark.Borne.later {mark : Mark} (borne : mark.Borne started wiped) (s : State) :
    mark.Borne (started ++ [s]) wiped := by
  cases mark with
  | keystream seeding start position => exact StartsAt.later borne s
  | zero => exact borne
theorem Holding.Borne.later {h : Holding} (borne : h.Borne started wiped) (s : State) :
    h.Borne (started ++ [s]) wiped :=
  ⟨borne.start.later s, fun mark member => (borne.pending mark member).later s⟩

/-- A draw hands out what was to come and words of the stream. -/
theorem Holding.Borne.draw {h : Holding} (borne : h.Borne started wiped) (d : Draw) :
    (∀ mark ∈ (h.draw d).1, mark.Borne started wiped) ∧ (h.draw d).2.Borne started wiped := by
  obtain ⟨words, flow, _⟩ := flow_serve h.source (tapRequest d) h.tap
  have all : ∀ mark ∈ (h.draw d).1 ++ (h.draw d).2.tap.pending, mark.Borne started wiped := by
    intro mark member
    rcases List.mem_append.mp (flow.mem_iff.mp member) with kept | drawn
    · exact borne.pending mark kept
    · rw [Holding.source, supply_marks] at drawn
      obtain ⟨_, _, rfl⟩ := List.mem_map.mp drawn
      exact borne.start
  exact ⟨fun mark member => all mark (List.mem_append_left _ member), borne.start,
    fun mark member => all mark (List.mem_append_right _ member)⟩
theorem Holding.Borne.restart {h : Holding} (borne : h.Borne started wiped) : h.restart.Borne started wiped :=
  ⟨borne.start, fun _ impossible => absurd impossible List.not_mem_nil⟩
theorem borne_wiped (happened : wiped) (h : Holding) : h.wiped.Borne started wiped where
  start := ⟨happened, rfl⟩
  pending mark member := by
    rw [List.eq_of_mem_replicate member]
    exact happened
theorem borne_idle (happened : wiped) : idle.Borne started wiped :=
  ⟨⟨happened, rfl⟩, fun _ impossible => absurd impossible List.not_mem_nil⟩
end

section
variable {hmac : Hmac σ} {wiped : Prop} {b : Books} {given : List Mark} (honest : Honest hmac wiped b given)
include honest

theorem Honest.set (address : Nat) {new : Option Holding} {more : List Mark}
    (borne : ∀ h, new = some h → h.Borne b.started wiped) (handed : ∀ mark ∈ more, mark.Borne b.started wiped) :
    Honest hmac wiped (b.set address new) (given ++ more) where
  derived := honest.derived
  given mark member := (List.mem_append.mp member).elim (honest.given mark) (handed mark)
  holdings other h held := by
    rcases update_cases held with ⟨_, put⟩ | ⟨_, old⟩
    · exact borne h put
    · exact honest.holdings other h old
theorem Honest.move (happened : wiped) (address source : Nat) : Honest hmac wiped (b.move address source) given where
  derived := honest.derived
  given := honest.given
  holdings other h held := by
    rcases update_cases held with ⟨_, put⟩ | ⟨_, old⟩
    · exact honest.holdings source h put
    · rcases update_cases old with ⟨_, put⟩ | ⟨_, kept⟩
      · cases put
        exact borne_idle happened
      · exact honest.holdings other h kept
theorem Honest.seed {key nonce info : Bytes} {st : σ} {s : State} (derived : derives hmac key nonce info st = some s)
    (address : Nat) : Honest hmac wiped (b.seed address s) given where
  derived t member := by
    rcases List.mem_append.mp member with old | new
    · exact honest.derived t old
    · rw [List.mem_singleton.mp new]
      exact ⟨key, nonce, info, st, derived⟩
  given mark member := (honest.given mark member).later s
  holdings other h held := by
    rcases update_cases held with ⟨_, put⟩ | ⟨_, old⟩
    · cases put
      exact ⟨List.getElem?_concat_length, fun _ impossible => absurd impossible List.not_mem_nil⟩
    · exact (honest.holdings other h old).later s

/-- An action keeps the books honest, if those that wipe an object are known to. -/
theorem allot_honest {action : Action} {m m' : Memory σ} (done : Lifetimes.perform hmac action m = some m')
    (wipes : Wipes (action, reply hmac action m) → wiped) :
    Honest hmac wiped (allot hmac action m b).2 (given ++ (allot hmac action m b).1) := by
  have same {b' : Books} (honest' : Honest hmac wiped b' given) : Honest hmac wiped b' (given ++ []) := by
    rw [List.append_nil]
    exact honest'
  cases action with
  | construct address key nonce info =>
    rw [allot]
    rcases derived : derives hmac key nonce info m.library with _ | s
    · exact same honest
    · exact same (honest.seed derived address)
  | call address call =>
    cases call with
    | draw d =>
      rw [allot]
      rcases held : b.holdings address with _ | h
      · exact same honest
      · obtain ⟨handed, left⟩ := (honest.holdings address h held).draw d
        exact honest.set address (fun _ put => Option.some.inj put ▸ left) handed
    | reset =>
      refine honest.set address (fun h put => ?_) fun _ impossible => absurd impossible List.not_mem_nil
      obtain ⟨old, held, rfl⟩ := Option.map_eq_some_iff.mp put
      exact (honest.holdings address old held).restart
    | exportState => exact same honest
    | exportStateJson np pretty => exact same honest
    | importState data => exact same honest
    | importStateJson json => exact same honest
  | reseed address key nonce info =>
    rw [allot]
    by_cases empty : key = []
    · rw [if_pos empty]
      exact same honest
    · rw [if_neg empty]
      rcases derived : derives hmac key nonce info m.library with _ | s
      · have happened := wipes (reply_failed empty derived done)
        refine honest.set address (fun h put => ?_) fun _ impossible => absurd impossible List.not_mem_nil
        obtain ⟨old, _, rfl⟩ := Option.map_eq_some_iff.mp put
        exact borne_wiped happened old
      · exact same (honest.seed derived address)
  | moveConstruct address source => exact same (honest.move (wipes trivial) address source)
  | moveAssign address source =>
    rw [allot]
    by_cases self : address = source
    · rw [if_pos self]
      exact same honest
    · rw [if_neg self]
      exact same (honest.move (wipes self) address source)
  | destroy address =>
    exact honest.set address (fun _ impossible => by cases impossible) fun _ impossible => absurd impossible List.not_mem_nil
end

/-! ## Whole programs -/

/-- The bytes that a program was handed, where the books say they come from. -/
def marksOf (log : List (Action × Response × List Mark)) : List Mark := log.flatMap fun entry => entry.2.2

theorem audit_some {hmac : Hmac σ} {action : Action} {m m' : Memory σ} {b b' : Books} {answer : Response}
    {handed : List Mark} (done : audit hmac action (m, b) = some ((answer, handed), m', b')) :
    Lifetimes.perform hmac action m = some m' ∧ answer = reply hmac action m ∧ (handed, b') = allot hmac action m b := by
  obtain ⟨⟨answer', m''⟩, acted, made⟩ := Option.map_eq_some_iff.mp done
  obtain ⟨m₀, performed, made'⟩ := Option.map_eq_some_iff.mp acted
  cases made
  cases made'
  exact ⟨performed, rfl, rfl⟩

/-- Through a program that imports nothing, every answer hands out the bytes that the books say. -/
theorem audit_values {hmac : Hmac σ} {actions : List Action} (own : ∀ action ∈ actions, ¬ Imports action)
    {m m' : Memory σ} {b b' : Books} {log : List (Action × Response × List Mark)} (agree : Agree b m)
    (done : Interleavings.perform (audit hmac) actions (m, b) = some (log, m', b')) :
    ∀ entry ∈ log, handedOut entry.2.1 = entry.2.2.map Mark.value := by
  induction actions generalizing m b log with
  | nil =>
    cases done
    exact fun entry impossible => absurd impossible List.not_mem_nil
  | cons action rest ih =>
    obtain ⟨⟨answer, handed⟩, ⟨between, books⟩, later, first, others, rfl⟩ := Interleavings.perform_cons.mp done
    obtain ⟨performed, rfl, allotted⟩ := audit_some first
    obtain ⟨values, agree'⟩ := audit_step agree (own action List.mem_cons_self) performed
    rw [← allotted] at values agree'
    intro entry member
    rcases List.mem_cons.mp member with rfl | after
    · exact values
    · exact ih (fun a inside => own a (List.mem_cons_of_mem _ inside)) agree' others entry after

/-- Through a program that does not go back either, no byte of a seeding is handed out twice. -/
theorem audit_once {hmac : Hmac σ} {actions : List Action} (forward : ∀ action ∈ actions, ¬ Rewinds action)
    {m m' : Memory σ} {b b' : Books} {log : List (Action × Response × List Mark)} {given : List Mark}
    (sound : Sound b given) (done : Interleavings.perform (audit hmac) actions (m, b) = some (log, m', b')) :
    Sound b' (given ++ marksOf log) := by
  induction actions generalizing m b log given with
  | nil =>
    cases done
    rw [marksOf, List.flatMap_nil, List.append_nil]
    exact sound
  | cons action rest ih =>
    obtain ⟨⟨answer, handed⟩, ⟨between, books⟩, later, first, others, rfl⟩ := Interleavings.perform_cons.mp done
    obtain ⟨_, rfl, allotted⟩ := audit_some first
    have sound' := allot_sound hmac (forward action List.mem_cons_self) m sound
    rw [← allotted] at sound'
    have rest := ih (fun a inside => forward a (List.mem_cons_of_mem _ inside)) sound' others
    rw [List.append_assoc] at rest
    exact rest

/-- In every program each byte handed out comes from where the books bear out that it does. -/
theorem audit_honest {hmac : Hmac σ} {actions : List Action} {m m' : Memory σ} {b b' : Books}
    {log : List (Action × Response × List Mark)} {wiped : Prop} {given : List Mark} (honest : Honest hmac wiped b given)
    (done : Interleavings.perform (audit hmac) actions (m, b) = some (log, m', b'))
    (wipes : ∀ entry ∈ log, Wipes (entry.1, entry.2.1) → wiped) : Honest hmac wiped b' (given ++ marksOf log) := by
  induction actions generalizing m b log given with
  | nil =>
    cases done
    rw [marksOf, List.flatMap_nil, List.append_nil]
    exact honest
  | cons action rest ih =>
    obtain ⟨⟨answer, handed⟩, ⟨between, books⟩, later, first, others, rfl⟩ := Interleavings.perform_cons.mp done
    obtain ⟨performed, rfl, allotted⟩ := audit_some first
    have honest' := allot_honest honest performed (wipes _ List.mem_cons_self)
    rw [← allotted] at honest'
    have rest := ih honest' others fun entry member => wipes entry (List.mem_cons_of_mem _ member)
    rw [List.append_assoc] at rest
    exact rest

/-- In every program that imports no state, over any crypto library, each byte that a draw returns is the byte
    at a known position of the keystream of a numbered seeding, from the state that it derived. Only if an
    object is moved away or the library fails a seeding can it be a byte of the keystream of the zero state
    instead, or one of the zeros of a wiped buffer. If the program resets no cipher either, no two bytes have
    the same position of the stream of one seeding, however the ciphers are moved, seeded again and
    interleaved. -/
theorem keystream_once {hmac : Hmac σ} {actions : List Action} (own : ∀ action ∈ actions, ¬ Imports action) {st : σ}
    {log : List (Action × Response)} {last : Memory σ}
    (done : Interleavings.perform (act hmac) actions (.start st) = some (log, last)) :
    ∃ audited books, Interleavings.perform (audit hmac) actions (.start st, .opened) = some (audited, last, books) ∧
      audited.map (Prod.map id Prod.fst) = log ∧
      (∀ entry ∈ audited, handedOut entry.2.1 = entry.2.2.map Mark.value) ∧
      (∀ s ∈ books.started, ∃ key nonce info st, derives hmac key nonce info st = some s) ∧
      (∀ mark ∈ marksOf audited, mark.Borne books.started (∃ entry ∈ log, Wipes entry)) ∧
      ((∀ action ∈ actions, ¬ Rewinds action) → (places (marksOf audited)).Nodup) := by
  have erased := Interleavings.perform_map Prod.fst (Prod.fst : Memory σ × Books → Memory σ)
    (fun action p => show (audit hmac action p).map (Prod.map Prod.fst Prod.fst) = act hmac action p.1 by
      simp [audit, Function.comp_def]) actions (.start st, .opened)
  rw [done] at erased
  obtain ⟨⟨audited, m', books⟩, ran, made⟩ := Option.map_eq_some_iff.mp erased
  cases made
  have agree : Agree .opened (.start st) := fun _ => .none
  have honest := audit_honest (honest_opened hmac _) ran fun entry member wipes =>
    show ∃ entry ∈ audited.map (Prod.map id Prod.fst), Wipes entry from ⟨_, List.mem_map_of_mem member, wipes⟩
  refine ⟨audited, books, ran, rfl, audit_values own agree ran, honest.derived, honest.given, fun forward => ?_⟩
  exact (audit_once forward sound_opened ran).once

/-- A stream that is drawn from by three objects in turn. -/
def passOn : List Action :=
  [.construct 0 [0x42] (List.replicate 12 1) [], .call 0 (.draw (.generate 3)), .moveConstruct 1 0, .call 1 (.draw .next),
    .construct 2 [0x42] (List.replicate 12 1) [], .moveAssign 2 1, .call 2 (.draw (.generate 9)), .call 0 (.draw .next),
    .destroy 2]
theorem keystream_once_passed : ∃ audited last books,
    Interleavings.perform (audit (pureHmac referenceHmac)) passOn (.start (), .opened) = some (audited, last, books) ∧
      (places (marksOf audited)).Nodup := by
  have own : ∀ action ∈ passOn, ¬ Imports action := by simp [passOn, Imports]
  have forward : ∀ action ∈ passOn, ¬ Rewinds action := by simp [passOn, Rewinds]
  have possible : (Interleavings.perform (act (pureHmac referenceHmac)) passOn (.start ())).isSome = true := by
    decide +kernel
  obtain ⟨⟨log, last⟩, done⟩ := Option.isSome_iff_exists.mp possible
  obtain ⟨audited, books, ran, _, _, _, _, once⟩ := keystream_once own done
  exact ⟨audited, last, books, ran, once forward⟩

end Eahcm.Allotments
