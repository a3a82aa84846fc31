import Mathlib.Logic.Function.Basic
import Eahcm.Scans
import Eahcm.Sessions

/-!
The member functions of `Cipher` that replace its members, statement by statement: what a
function has done to the object stays done when it throws, and a vector that is assigned to or
destroyed gives its buffer up with the bytes that are in it. Each body does to the object what
the function of the class does; an import that throws has done nothing
(`import_all_or_nothing`).
-/
namespace Eahcm.Objects
open Eahcm.Types Eahcm.KeySchedule Eahcm.Binary Eahcm.Json Eahcm.Machines Eahcm.Ciphers Eahcm.Sessions Eahcm.Scans
variable {σ : Type}

/-- Some bytes, all of them zero. -/
def AllZero (bytes : Bytes) : Prop := ∀ b ∈ bytes, b = 0
instance (bytes : Bytes) : Decidable (AllZero bytes) := inferInstanceAs (Decidable (∀ b ∈ bytes, b = 0))

/-- The buffers given up, once a vector gives up its own; an empty vector has none. -/
def giveUp (bytes : Bytes) (released : List Bytes) : List Bytes := if bytes = [] then released else released ++ [bytes]
/-- `EAHCM_SECURE_ZERO` over a vector. -/
def zeroed (bytes : Bytes) : Bytes := List.replicate bytes.length 0

/-- The key material overwritten, if there is any. -/
def wipeKey (c : Cipher) : Cipher :=
  if c.keyMaterial.isEmpty then c else { c with keyMaterial := zeroed c.keyMaterial }
def wipeNonce (c : Cipher) : Cipher :=
  if c.nonceMaterial.isEmpty then c else { c with nonceMaterial := zeroed c.nonceMaterial }

/-- An object in the middle of a member function, the crypto library, and the buffers of key
    material that were given up so far. -/
structure Frame (σ : Type) where
  object : Cipher
  library : σ
  released : List Bytes

/-- `key_material_.assign(key.begin(), key.end())`. -/
def Frame.assignKey (f : Frame σ) (key : Bytes) : Frame σ where
  object := { f.object with keyMaterial := key }
  library := f.library
  released := giveUp f.object.keyMaterial f.released
/-- What `derive_state` returns or throws, and the library after it. -/
def Frame.derive (hmac : Hmac σ) (key nonce info : Bytes) (f : Frame σ) : Except Fault State × Frame σ :=
  ((deriveState hmac key nonce [] info f.library).1,
    { f with library := (deriveState hmac key nonce [] info f.library).2 })

/-- The body of the constructor, after the default values of the members. -/
def constructorBody (hmac : Hmac σ) (key nonce info : Bytes) (f : Frame σ) : Except Fault Unit × Frame σ :=
  if key.isEmpty then (.error keyEmpty, f)
  else
    let f := f.assignKey key
    let f := { f with object := { f.object with nonceMaterial := nonce } }
    let f := { f with object := { f.object with infoMaterial := info } }
    match f.derive hmac key nonce info with
    | (.error e, f) => (.error e, f)
    | (.ok s, f) =>
      let f := { f with object := { f.object with state := s } }
      (.ok (), { f with object := { f.object with initialState := f.object.state } })

/-- The body of the destructor. -/
def destructorBody (c : Cipher) : Cipher :=
  let c := { c with state := c.state.secureWipe }
  let c := { c with initialState := c.initialState.secureWipe }
  let c := { c with buffer := zeroBuffer }
  wipeNonce (wipeKey c)

def reseedBody (hmac : Hmac σ) (key nonce info : Bytes) (f : Frame σ) : Except Fault Unit × Frame σ :=
  if key.isEmpty then (.error keyEmpty, f)
  else
    let f := { f with object := { f.object with state := f.object.state.secureWipe } }
    let f := { f with object := { f.object with initialState := f.object.initialState.secureWipe } }
    let f := { f with object := { f.object with buffer := zeroBuffer } }
    let f := { f with object := wipeKey f.object }
    let f := f.assignKey key
    let f := { f with object := { f.object with nonceMaterial := nonce } }
    let f := { f with object := { f.object with infoMaterial := info } }
    match f.derive hmac key nonce info with
    | (.error e, f) => (.error e, f)
    | (.ok s, f) =>
      let f := { f with object := { f.object with state := s } }
      let f := { f with object := { f.object with initialState := f.object.state } }
      (.ok (), { f with object := { f.object with bufferPos := 8 } })

/-- The bodies of both imports, over what the decoder returns or throws. -/
def importBody (decoded : Except Fault State) (c : Cipher) : Except Fault Unit × Cipher :=
  match decoded with
  | .error e => (.error e, c)
  | .ok s =>
    let c := { c with state := s }
    let c := { c with bufferPos := 8 }
    (.ok (), { c with buffer := zeroBuffer })

def importStateBody (data : Blob) (c : Cipher) : Except Fault Unit × Cipher := importBody (deserializeBinary data) c
def importStateJsonBody (json : Text) (c : Cipher) : Except Fault Unit × Cipher := importBody (deserializeJsonAt json) c

/-- The two objects of a move, and the buffers of key material that were given up so far. -/
structure Transfer where
  target : Cipher
  other : Cipher
  released : List Bytes

/-- `key_material_ = std::move(other.key_material_)`. -/
def Transfer.moveKey (t : Transfer) : Transfer where
  target := { t.target with keyMaterial := t.other.keyMaterial }
  other := { t.other with keyMaterial := [] }
  released := giveUp t.target.keyMaterial t.released
def Transfer.moveNonce (t : Transfer) : Transfer where
  target := { t.target with nonceMaterial := t.other.nonceMaterial }
  other := { t.other with nonceMaterial := [] }
  released := t.released
def Transfer.moveInfo (t : Transfer) : Transfer where
  target := { t.target with infoMaterial := t.other.infoMaterial }
  other := { t.other with infoMaterial := [] }
  released := t.released
/-- What both moves do to the other object in the end. -/
def Transfer.wipeOther (t : Transfer) : Transfer :=
  let t := { t with other := { t.other with state := t.other.state.secureWipe } }
  let t := { t with other := { t.other with initialState := t.other.initialState.secureWipe } }
  let t := { t with other := { t.other with buffer := zeroBuffer } }
  { t with other := { t.other with bufferPos := 8 } }

/-- The initializers and the body of the move constructor. -/
def moveConstructorBody (t : Transfer) : Transfer :=
  let t := { t with target := { t.target with state := t.other.state } }
  let t := { t with target := { t.target with initialState := t.other.initialState } }
  let t := { t with target := { t.target with buffer := t.other.buffer } }
  let t := { t with target := { t.target with bufferPos := t.other.bufferPos } }
  t.moveKey.moveNonce.moveInfo.wipeOther
/-- The body of the move assignment, for two different objects. -/
def moveAssignmentBody (t : Transfer) : Transfer :=
  let t := { t with target := { t.target with state := t.target.state.secureWipe } }
  let t := { t with target := { t.target with initialState := t.target.initialState.secureWipe } }
  let t := { t with target := { t.target with buffer := zeroBuffer } }
  let t := { t with target := { t.target with state := t.other.state } }
  let t := { t with target := { t.target with initialState := t.other.initialState } }
  let t := { t with target := { t.target with buffer := t.other.buffer } }
  let t := { t with target := { t.target with bufferPos := t.other.bufferPos } }
  t.moveKey.moveNonce.moveInfo.wipeOther

theorem wipeKey_eq (c : Cipher) : wipeKey c = { c with keyMaterial := zeroed c.keyMaterial } := by
  cases empty : c.keyMaterial with
  | nil =>
    rw [wipeKey, empty]
    obtain ⟨_, _, _, _, _, _, _⟩ := c
    simp only at empty
    rw [empty]
    rfl
  | cons b rest =>
    rw [wipeKey, empty]
    rfl

theorem constructorBody_run (hmac : Hmac σ) {key : Bytes} (nonce info : Bytes) (present : key ≠ []) (st : σ)
    (released : List Bytes) :
    constructorBody hmac key nonce info ⟨{}, st, released⟩ =
      match deriveState hmac key nonce [] info st with
      | (.error e, st') =>
        (.error e, ⟨{ keyMaterial := key, nonceMaterial := nonce, infoMaterial := info }, st', released⟩)
      | (.ok s, st') => (.ok (), ⟨seededWith s key nonce info, st', released⟩) := by
  have nonempty : key.isEmpty = false := by simpa using present
  simp only [constructorBody, nonempty, Bool.false_eq_true, if_false, Frame.derive, Frame.assignKey, giveUp, if_true]
  rcases deriveState hmac key nonce [] info st with ⟨e | s, st'⟩
  · rfl
  · rfl

/-- The constructor makes the cipher of `construct`, or throws as it does. -/
theorem constructorBody_construct (hmac : Hmac σ) (key nonce info : Bytes) (st : σ) (released : List Bytes) :
    construct hmac key nonce info st =
      match constructorBody hmac key nonce info ⟨{}, st, released⟩ with
      | (.error e, f) => (.error e, f.library)
      | (.ok (), f) => (.ok f.object, f.library) := by
  by_cases present : key = []
  · subst present
    rfl
  · rw [constructorBody_run hmac nonce info present, construct_run hmac nonce info present]
    rcases deriveState hmac key nonce [] info st with ⟨e | s, st'⟩
    · rfl
    · rfl

/-- The object is left by a seeding as by `reseed`, and the old key is overwritten before its
    buffer is given up. -/
theorem reseedBody_run (hmac : Hmac σ) (key nonce info : Bytes) (c : Cipher) (st : σ) (released : List Bytes) :
    reseedBody hmac key nonce info ⟨c, st, released⟩ =
      ((reseed hmac key nonce info c st).1, ⟨(reseed hmac key nonce info c st).2.1, (reseed hmac key nonce info c st).2.2,
        if key = [] then released else giveUp (zeroed c.keyMaterial) released⟩) := by
  by_cases present : key = []
  · subst present
    rfl
  · have nonempty : key.isEmpty = false := by simpa using present
    rw [reseed_run hmac nonce info present, if_neg present]
    simp only [reseedBody, nonempty, Bool.false_eq_true, if_false, wipeKey_eq, Frame.assignKey, Frame.derive]
    rcases deriveState hmac key nonce [] info st with ⟨e | s, st'⟩
    · rfl
    · rfl

/-- A move constructor leaves the object it moves from as one without a key and a history. -/
theorem moveConstructorBody_eq (other : Cipher) (released : List Bytes) :
    moveConstructorBody ⟨{}, other, released⟩ = ⟨other, {}, released⟩ := rfl
/-- So does a move assignment, and the old key of its target is given up as it is. -/
theorem moveAssignmentBody_eq (target other : Cipher) (released : List Bytes) :
    moveAssignmentBody ⟨target, other, released⟩ = ⟨other, {}, giveUp target.keyMaterial released⟩ := rfl
/-- Both moves are those of the class. -/
theorem moves_eq (target other : Cipher) (released : List Bytes) :
    moveConstruct other = ((moveConstructorBody ⟨{}, other, released⟩).target,
        (moveConstructorBody ⟨{}, other, released⟩).other) ∧
      moveAssign target other = ((moveAssignmentBody ⟨target, other, released⟩).target,
        (moveAssignmentBody ⟨target, other, released⟩).other) := ⟨rfl, rfl⟩

theorem destructorBody_key (c : Cipher) : (destructorBody c).keyMaterial = zeroed c.keyMaterial := by
  have kept (c : Cipher) : (wipeNonce c).keyMaterial = c.keyMaterial := by
    rw [wipeNonce]
    split <;> rfl
  rw [destructorBody, kept, wipeKey_eq]

/-- The answer to a call that returns nothing. -/
def answered : Except Fault Unit × Cipher → Response × Cipher
  | (.ok (), c) => (.done, c)
  | (.error e, c) => (.thrown e, c)
/-- Both imports, statement by statement, are those of the class. -/
theorem importBody_serve (c : Cipher) :
    (∀ data, serve (.importState data) c = answered (importStateBody data c)) ∧
      ∀ json, serve (.importStateJson json) c = answered (importStateJsonBody json c) := by
  refine ⟨fun data => ?_, fun json => ?_⟩
  · rw [serve, importState, importStateBody]
    rcases deserializeBinary data with e | s
    · rfl
    · rfl
  · rw [serve, importStateJson, importStateJsonBody, deserializeJsonAt_eq]
    rcases deserializeJson json with e | s
    · rfl
    · rfl

theorem importBody_cases {decoded : Except Fault State} (declared : Declared decoded) (c : Cipher) :
    (∃ what, decoded = .error (.serializationError what) ∧ importBody decoded c = (.error (.serializationError what), c)) ∨
      ∃ s, decoded = .ok s ∧
        importBody decoded c = (.ok (), { c with state := s, bufferPos := 8, buffer := zeroBuffer }) := by
  cases decoded with
  | ok s => exact Or.inr ⟨s, rfl, rfl⟩
  | error e =>
    obtain ⟨what, rfl⟩ := declared e rfl
    exact Or.inl ⟨what, rfl, rfl⟩
theorem importBody_error {decoded : Except Fault State} {c c' : Cipher} {e : Fault}
    (thrown : importBody decoded c = (.error e, c')) : c' = c := by
  cases decoded with
  | ok s => cases thrown
  | error fault =>
    cases thrown
    rfl

/-- An import throws what its decoder throws, which is its own exception, and leaves every member as it
    was, or it puts the decoded state in place, empties the buffer and leaves the rest; no access is
    outside what it is given, and after a failure no calls tell that it was made. -/
theorem import_all_or_nothing (c : Cipher) :
    (∀ data, (∃ what, deserializeBinary data = .error (.serializationError what) ∧
          importStateBody data c = (.error (.serializationError what), c)) ∨
        ∃ s, deserializeBinary data = .ok s ∧
          importStateBody data c = (.ok (), { c with state := s, bufferPos := 8, buffer := zeroBuffer })) ∧
      (∀ json, (∃ what, deserializeJsonAt json = .error (.serializationError what) ∧
          importStateJsonBody json c = (.error (.serializationError what), c)) ∨
        ∃ s, deserializeJsonAt json = .ok s ∧
          importStateJsonBody json c = (.ok (), { c with state := s, bufferPos := 8, buffer := zeroBuffer })) ∧
      (∀ data e c', importStateBody data c = (.error e, c') → Indistinguishable serve c' c) ∧
      ∀ json e c', importStateJsonBody json c = (.error e, c') → Indistinguishable serve c' c := by
  have unchanged {decoded : Except Fault State} {c' : Cipher} {e : Fault}
      (thrown : importBody decoded c = (.error e, c')) : Indistinguishable serve c' c := by
    rw [importBody_error thrown]
    exact fun _ => rfl
  refine ⟨fun data => importBody_cases (deserializeBinary_declared data) c, fun json => ?_,
    fun data e c' thrown => unchanged thrown, fun json e c' thrown => unchanged thrown⟩
  have declared : Declared (deserializeJsonAt json) := by
    rw [deserializeJsonAt_eq]
    exact deserializeJson_declared json
  exact importBody_cases declared c

end Eahcm.Objects
