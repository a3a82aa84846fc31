import Eahcm.Sessions

/-!
What tells two nonces apart. HKDF-Extract uses the nonce as the key of an HMAC, and an HMAC
works on a block made of its key: zero-padded, hashed first when it does not fit. So two nonces
begin the same derivation exactly when they agree up to trailing zeros, after hashing the long
ones (`extract_separates`); nonces of one length never do. Lengths are cast to an int, and stay
below `2 ^ 31` here.
-/
namespace Eahcm.Nonces
open Eahcm.Types Eahcm.KeySchedule Eahcm.Ciphers Eahcm.Sessions

/-- The bytes an HMAC key contributes: itself, or its hash when it is longer than a block. -/
def shortened (hash : Bytes → Digest) (key : Bytes) : Bytes := if key.length ≤ 136 then key else (hash key).val
/-- Zeros up to the size of a block of SHA3-256. -/
def padded (key : Bytes) : Bytes := key ++ List.replicate (136 - key.length) 0
/-- The block that an HMAC works on, with a key of the length it is given. -/
def keyBlock (hash : Bytes → Digest) (key : Bytes) (keyLen : Int) : Bytes :=
  padded (shortened hash (key.take keyLen.toNat))
/-- The HMAC of RFC 2104 over a hash. -/
def rfc2104 (hash : Bytes → Digest) (key : Bytes) (keyLen : Int) (data : Bytes) : Digest :=
  hash ((keyBlock hash key keyLen).map (· ^^^ 0x5c) ++
    (hash ((keyBlock hash key keyLen).map (· ^^^ 0x36) ++ data)).val)
/-- That HMAC, with a record of the blocks it has worked on. -/
def recording (hash : Bytes → Digest) : Hmac (List Bytes) := fun key keyLen data blocks =>
  (some (rfc2104 hash key keyLen data), blocks ++ [keyBlock hash key keyLen])

/-- The blocks of the HMAC calls that HKDF-Extract makes for a cipher with a key and a nonce. -/
def extractBlocks (hash : Bytes → Digest) (key nonce : Bytes) : List Bytes :=
  (hkdfExtract (recording hash) (buildSalt nonce []) key []).2

/-- The same bytes, where those past the end count as zero. -/
def SameButZeros (a b : Bytes) : Prop := ∀ i, a.getD i 0 = b.getD i 0

theorem getElem?_padded (key : Bytes) (i : Nat) (inside : i < 136) : (padded key)[i]? = some (key.getD i 0) := by
  by_cases own : i < key.length
  · simp [padded, List.getElem?_append_left own, own]
  · rw [padded, List.getElem?_append_right (by omega), List.getElem?_replicate, if_pos (by omega)]
    simp [own]
theorem length_padded {key : Bytes} (fits : key.length ≤ 136) : (padded key).length = 136 := by
  rw [padded, List.length_append, List.length_replicate]
  omega
theorem padded_eq_iff {a b : Bytes} (fits : a.length ≤ 136) (fits' : b.length ≤ 136) :
    padded a = padded b ↔ SameButZeros a b := by
  constructor
  · intro same i
    by_cases inside : i < 136
    · have both := congrArg (·[i]?) same
      simp only [getElem?_padded _ i inside] at both
      exact Option.some.inj both
    · have past : a[i]? = none := List.getElem?_eq_none (by omega)
      have past' : b[i]? = none := List.getElem?_eq_none (by omega)
      rw [List.getD, List.getD, past, past']
  · intro same
    apply List.ext_getElem?
    intro i
    by_cases inside : i < 136
    · rw [getElem?_padded a i inside, getElem?_padded b i inside, same i]
    · rw [List.getElem?_eq_none (by rw [length_padded fits]; omega),
        List.getElem?_eq_none (by rw [length_padded fits']; omega)]

theorem length_shortened (hash : Bytes → Digest) (key : Bytes) : (shortened hash key).length ≤ 136 := by
  by_cases short : key.length ≤ 136
  · rw [shortened, if_pos short]
    exact short
  · rw [shortened, if_neg short, (hash key).property]
    omega

theorem SameButZeros.eq_of_length {a b : Bytes} (same : SameButZeros a b) (length : a.length = b.length) : a = b := by
  apply List.ext_getElem length
  intro i inside inside'
  have here := same i
  rw [List.getD, List.getD, List.getElem?_eq_getElem inside, List.getElem?_eq_getElem inside'] at here
  exact here

theorem castInt_small {size : Nat} (small : size < 2 ^ 31) : castInt size = size := by
  have below : (size : Int) < 2 ^ 31 := by exact_mod_cast small
  exact Int.bmod_eq_of_le (by omega) (by omega)

theorem extractBlocks_run (hash : Bytes → Digest) (key nonce : Bytes) :
    extractBlocks hash key nonce = [keyBlock hash (extractKey nonce) (castInt (extractKey nonce).length)] := by
  have salt : buildSalt nonce [] = nonce := List.append_nil nonce
  rw [extractBlocks, salt, hkdfExtract_eq, sha3256Hmac_run]
  simp only [recording, List.nil_append]
/-- The block that HKDF-Extract works on is that of the nonce, the empty one among them. -/
theorem extractBlocks_eq (hash : Bytes → Digest) (key : Bytes) {nonce : Bytes} (small : nonce.length < 2 ^ 31) :
    extractBlocks hash key nonce = [padded (shortened hash nonce)] := by
  rw [extractBlocks_run]
  cases nonce with
  | nil =>
    -- an empty salt is 32 zero bytes, which pad to the block of the empty key
    have zeros : extractKey [] = List.replicate 32 0 := rfl
    rw [zeros, List.length_replicate, castInt_small (by omega), keyBlock, Int.toNat_natCast]
    simp [shortened, padded]
  | cons b rest =>
    have own : extractKey (b :: rest) = b :: rest := rfl
    rw [own, keyBlock, castInt_small small, Int.toNat_natCast, List.take_length]

theorem extractBlocks_eq_iff (hash : Bytes → Digest) (key : Bytes) {nonce nonce' : Bytes}
    (small : nonce.length < 2 ^ 31) (small' : nonce'.length < 2 ^ 31) :
    extractBlocks hash key nonce = extractBlocks hash key nonce' ↔
      SameButZeros (shortened hash nonce) (shortened hash nonce') := by
  rw [extractBlocks_eq hash key small, extractBlocks_eq hash key small', List.cons.injEq, and_iff_left rfl]
  exact padded_eq_iff (length_shortened _ _) (length_shortened _ _)

/-- Two nonces on which HKDF-Extract works with one block give one derived state. -/
theorem derivedState_of_blocks {hash : Bytes → Digest} {key nonce nonce' : Bytes}
    (same : extractBlocks hash key nonce = extractBlocks hash key nonce') (info : Bytes) :
    derivedState (rfc2104 hash) key nonce [] info = derivedState (rfc2104 hash) key nonce' [] info := by
  rw [extractBlocks_run, extractBlocks_run] at same
  have block := List.head_eq_of_cons_eq same
  have salt (nonce : Bytes) : buildSalt nonce [] = nonce := List.append_nil nonce
  have extracted : rfc2104 hash (extractKey nonce) (castInt (extractKey nonce).length) key =
      rfc2104 hash (extractKey nonce') (castInt (extractKey nonce').length) key := by
    rw [rfc2104, rfc2104, block]
  simp only [derivedState, blockOf, salt, extracted]

theorem shortened_short (hash : Bytes → Digest) {nonce : Bytes} (short : nonce.length ≤ 136) :
    shortened hash nonce = nonce := by
  rw [shortened, if_pos short]
theorem shortened_long (hash : Bytes → Digest) {nonce : Bytes} (long : 136 < nonce.length) :
    shortened hash nonce = (hash nonce).val := by
  rw [shortened, if_neg (by omega)]

/-- Two nonces of one length, or both longer than a block, are told apart when the hashes of long
    ones do not collide. -/
theorem extractBlocks_ne {hash : Bytes → Digest} {key nonce nonce' : Bytes} (different : nonce ≠ nonce')
    (small : nonce.length < 2 ^ 31) (small' : nonce'.length < 2 ^ 31)
    (comparable : nonce.length = nonce'.length ∨ 136 < nonce.length ∧ 136 < nonce'.length)
    (collisionFree : 136 < nonce.length → hash nonce = hash nonce' → nonce = nonce') :
    extractBlocks hash key nonce ≠ extractBlocks hash key nonce' := by
  rw [Ne, extractBlocks_eq_iff hash key small small']
  intro same
  rcases Nat.lt_or_ge 136 nonce.length with long | short
  · have long' : 136 < nonce'.length := by omega
    rw [shortened_long hash long, shortened_long hash long'] at same
    have lengths : (hash nonce).val.length = (hash nonce').val.length :=
      (hash nonce).property.trans (hash nonce').property.symm
    exact different (collisionFree long (Subtype.ext (same.eq_of_length lengths)))
  · rw [shortened_short hash short, shortened_short hash (by omega)] at same
    exact different (same.eq_of_length (by omega))

/-- HKDF-Extract tells two nonces apart, whose lengths are within an int, exactly when they, or the
    hashes of the long ones, differ by more than trailing zeros. Nonces of one length do, and nonces
    longer than a block; nonces it does not tell apart give two ciphers one stream, whatever the hash. -/
theorem extract_separates (hash : Bytes → Digest) {key nonce nonce' : Bytes} (present : key ≠ [])
    (small : nonce.length < 2 ^ 31) (small' : nonce'.length < 2 ^ 31) :
    (extractBlocks hash key nonce = extractBlocks hash key nonce' ↔
        SameButZeros (shortened hash nonce) (shortened hash nonce')) ∧
      (nonce ≠ nonce' → (nonce.length = nonce'.length ∨ 136 < nonce.length ∧ 136 < nonce'.length) →
        (136 < nonce.length → hash nonce = hash nonce' → nonce = nonce') →
          extractBlocks hash key nonce ≠ extractBlocks hash key nonce') ∧
      (extractBlocks hash key nonce = extractBlocks hash key nonce' → ∀ info, ∃ s,
        construct (pureHmac (rfc2104 hash)) key nonce info () = (.ok (seededWith s key nonce info), ()) ∧
          construct (pureHmac (rfc2104 hash)) key nonce' info () = (.ok (seededWith s key nonce' info), ())) := by
  refine ⟨extractBlocks_eq_iff hash key small small', fun different comparable collisionFree =>
    extractBlocks_ne different small small' comparable collisionFree, fun same info => ?_⟩
  have computes := pureHmac_computes (rfc2104 hash)
  obtain ⟨⟨⟩, ran⟩ := construct_computes computes nonce info present ()
  obtain ⟨⟨⟩, ran'⟩ := construct_computes computes nonce' info present ()
  rw [← derivedState_of_blocks same info] at ran'
  exact ⟨_, ran, ran'⟩

/-- Two nonces that do not fit a block, and a hash that tells them apart by their first bytes. -/
theorem extract_separates_long : ∃ hash : Bytes → Digest,
    extractBlocks hash [0x42] (1 :: List.replicate 136 0) ≠ extractBlocks hash [0x42] (2 :: List.replicate 199 0) := by
  have length (b : Byte) (zeros : Nat) : (b :: List.replicate zeros 0).length = zeros + 1 := by
    rw [List.length_cons, List.length_replicate]
  have small := length 1 136
  have small' := length 2 199
  refine ⟨fun bytes => digestOf ((bytes.headD 0).setWidth 256), ?_⟩
  refine (extract_separates _ (by decide) (by omega) (by omega)).2.1 ?_ (Or.inr (by omega)) ?_
  · intro same
    exact absurd (List.head_eq_of_cons_eq same) (by decide)
  intro _ collide
  have digits := congrArg (fun d : Digest => d.val.getLast?) collide
  exact absurd digits (by decide)

/-- Distinct nonces that the hash does not confuse give HKDF-Extract different blocks. -/
def Separated (hash : Bytes → Digest) : Prop := ∀ key nonce nonce', key ≠ [] → nonce ≠ nonce' →
  (hash nonce = hash nonce' → nonce = nonce') → extractBlocks hash key nonce ≠ extractBlocks hash key nonce'

/-- A nonce of one byte is not separated from the same byte and a zero, by no hash, nor the empty
    nonce from 32 zeros. -/
theorem not_separated :
    (¬ ∃ hash, hash [1] ≠ hash [1, 0] ∧ Separated hash) ∧
      (¬ ∃ hash key, extractBlocks hash key [1] ≠ extractBlocks hash key [1, 0]) ∧
        ¬ ∃ hash key, extractBlocks hash key [] ≠ extractBlocks hash key (List.replicate 32 0) := by
  have short {nonce : Bytes} (short : nonce.length ≤ 136) (hash : Bytes → Digest) (key : Bytes) :
      extractBlocks hash key nonce = [padded nonce] := by
    rw [extractBlocks_eq hash key (by omega), shortened_short hash short]
  have padding (hash : Bytes → Digest) (key : Bytes) : extractBlocks hash key [1] = extractBlocks hash key [1, 0] := by
    rw [short (by decide), short (by decide)]
    rfl
  refine ⟨?_, ?_, ?_⟩
  · rintro ⟨hash, apart, separated⟩
    exact separated [0x42] [1] [1, 0] (by decide) (by decide) (fun same => absurd same apart) (padding hash [0x42])
  · rintro ⟨hash, key, different⟩
    exact different (padding hash key)
  · rintro ⟨hash, key, different⟩
    apply different
    rw [short (by decide), short (by rw [List.length_replicate]; omega)]
    simp [padded]

end Eahcm.Nonces
