import Eahcm.Equations
import Eahcm.Fibres
import Eahcm.KeySchedule

/-!
Parameters that are clamped twice. `get_init_params` clamps the four parameters it reads, and the state
that `derive_state` makes of them clamps them again. A clamp turns the regime by a fixed distance, so no
parameter is the same in both (`derivation_parameters`), and as a clamp is a remainder, the parameters of
a state have nine raw words to come from in one band of the regime and eight elsewhere
(`parameter_bias`).
-/
namespace Eahcm.Clamps
open Eahcm.Types Eahcm.States Eahcm.KeySchedule Eahcm.Equations Eahcm.Fibres
variable {σ : Type}

/-- How far a parameter is above the floor. -/
def above (p : Word32) : Nat := p.toNat - paramFloor.toNat

theorem paramFloor_eq : paramFloor.toNat = 0xE0000000 := rfl
theorem driftMask_eq : driftMask.toNat = 0x1FF00000 := rfl
theorem paramOk_iff (p : Word32) : ParamOk p ↔ 0xE0000000 ≤ p.toNat ∧ p.toNat < 0xFFF00000 := Iff.rfl

theorem above_clampParam (raw : Word32) : above (clampParam raw) = raw.toNat % 0x1FF00000 := by
  rw [above, toNat_clampParam, driftMask_eq, Nat.add_sub_cancel_left]
/-- Within the regime a clamp is a turn. -/
theorem above_clamp {p : Word32} (inside : ParamOk p) : above (clampParam p) = (above p + 0x700000) % 0x1FF00000 := by
  obtain ⟨low, _⟩ := (paramOk_iff p).mp inside
  rw [above_clampParam, above, paramFloor_eq]
  omega
theorem above_iterate {p : Word32} (inside : ParamOk p) (k : Nat) :
    ParamOk (clampParam^[k] p) ∧ above (clampParam^[k] p) = (above p + k * 0x700000) % 0x1FF00000 := by
  obtain ⟨low, high⟩ := (paramOk_iff p).mp inside
  induction k with
  | zero =>
    refine ⟨inside, ?_⟩
    rw [Function.iterate_zero_apply, above, paramFloor_eq]
    omega
  | succ k ih =>
    rw [Function.iterate_succ_apply']
    refine ⟨clampParam_ok _, ?_⟩
    rw [above_clamp ih.1, ih.2]
    omega

theorem eq_of_above {p q : Word32} (inside : ParamOk p) (inside' : ParamOk q) (same : above p = above q) : p = q := by
  obtain ⟨low, _⟩ := (paramOk_iff p).mp inside
  obtain ⟨low', _⟩ := (paramOk_iff q).mp inside'
  rw [above, above, paramFloor_eq] at same
  exact BitVec.eq_of_toNat_eq (by omega)
theorem above_lt {p : Word32} (inside : ParamOk p) : above p < 0x1FF00000 := by
  obtain ⟨low, high⟩ := (paramOk_iff p).mp inside
  rw [above, paramFloor_eq]
  omega
theorem clampParam_eq_place {q : Word32} (inside : ParamOk q) (raw : Word32) :
    clampParam raw = q ↔ raw.toNat % 0x1FF00000 = above q := by
  rw [← above_clampParam]
  exact ⟨fun same => congrArg above same, eq_of_above (clampParam_ok raw) inside⟩

/-- A parameter in the regime comes back after 73 clamps, and not before. -/
theorem iterate_clampParam_eq_iff {p : Word32} (inside : ParamOk p) (k : Nat) : clampParam^[k] p = p ↔ 73 ∣ k := by
  obtain ⟨inside', turned⟩ := above_iterate inside k
  have distance := above_lt inside
  constructor
  · intro back
    rw [back] at turned
    omega
  · rintro ⟨turns, rfl⟩
    refine eq_of_above inside' inside ?_
    rw [turned]
    omega

/-- A parameter and where the second clamp moves it in the regime. -/
structure Moved (p q : Word32) : Prop where
  once : ParamOk p
  twice : ParamOk q
  differ : q ≠ p
  distance : above q = (above p + 0x700000) % 0x1FF00000

theorem moved_clampParam {p : Word32} (inside : ParamOk p) : Moved p (clampParam p) where
  once := inside
  twice := clampParam_ok p
  differ same := by
    have turns := (iterate_clampParam_eq_iff inside 1).mp same
    omega
  distance := above_clamp inside

theorem guardAbsorbing_guardAbsorbing (v : Word32) : guardAbsorbing (guardAbsorbing v) = guardAbsorbing v := by
  by_cases zero : v = 0x00000000
  · subst zero
    rfl
  · by_cases ones : v = 0xFFFFFFFF
    · subst ones
      rfl
    · have kept : guardAbsorbing v = v := by rw [guardAbsorbing, if_neg zero, if_neg ones]
      rw [kept, kept]

/-- The state that a derivation warms up. -/
def startOf (params : InitParams) : State :=
  makeState params.initX params.initY params.initZ params.initW params.initAlpha params.initGamma params.initMu
    params.initSigma

theorem words_startOf (stateBlock paramBlock : Digest) : words (startOf (paramsOf stateBlock paramBlock)) =
    ((paramsOf stateBlock paramBlock).initX, (paramsOf stateBlock paramBlock).initY,
      (paramsOf stateBlock paramBlock).initZ, (paramsOf stateBlock paramBlock).initW) := by
  simp only [words, startOf, makeState, paramsOf, guardAbsorbing_guardAbsorbing]

/-- A derivation fails where `get_init_params` does and otherwise warms up a state that has the words which
    that function returns for the same arguments, and none of its parameters: each of the four is moved on
    by one distance in the regime. -/
theorem derivation_parameters (hmac : Hmac σ) (userKey nonce salt info : Bytes) (st : σ) :
    (∃ e st', getInitParams hmac userKey nonce salt info st = (.error e, st') ∧
        deriveState hmac userKey nonce salt info st = (.error e, st')) ∨
      ∃ params start st', getInitParams hmac userKey nonce salt info st = (.ok params, st') ∧
        deriveState hmac userKey nonce salt info st = (.ok (warmup start), st') ∧
          words start = (params.initX, params.initY, params.initZ, params.initW) ∧
            (Moved params.initAlpha start.alpha ∧ Moved params.initGamma start.gamma) ∧
              Moved params.initMu start.mu ∧ Moved params.initSigma start.sigma := by
  by_cases key : userKey = []
  · subst key
    exact Or.inl ⟨_, st, rfl, rfl⟩
  · have params := getInitParams_run hmac userKey nonce salt info key st
    have derived := deriveState_run hmac userKey nonce salt info key st
    rcases answer : exchanges hmac userKey nonce salt info st with ⟨_ | ⟨stateBlock, paramBlock⟩, st'⟩
    · rw [answer] at params derived
      exact Or.inl ⟨_, st', params, derived⟩
    · rw [answer] at params derived
      have inside (raw : Word32) : Moved (clampParam raw) (clampParam (clampParam raw)) :=
        moved_clampParam (clampParam_ok raw)
      exact Or.inr ⟨_, startOf (paramsOf stateBlock paramBlock), st', params, derived, words_startOf stateBlock paramBlock,
        ⟨inside _, inside _⟩, inside _, inside _⟩

theorem clamped_twice_iff {q : Word32} (inside : ParamOk q) (raw : Word32) :
    clampParam (clampParam raw) = q ↔ raw.toNat % 0x1FF00000 = (above q + 0x1FF00000 - 0x700000) % 0x1FF00000 := by
  have value : above (clampParam (clampParam raw)) = (raw.toNat % 0x1FF00000 + 0x700000) % 0x1FF00000 := by
    rw [above_clamp (clampParam_ok raw), above_clampParam]
  have distance := above_lt inside
  constructor
  · rintro rfl
    omega
  · intro remainder
    refine eq_of_above (clampParam_ok _) inside ?_
    omega

/-- The clamp is the remainder of a word, and the words are eight times its modulus and a rest. -/
theorem card_place {v : Nat} (below : v < 0x1FF00000) :
    Nat.card { raw : Word32 // raw.toNat % 0x1FF00000 = v } = if v < 0x800000 then 9 else 8 := by
  have whole : 2 ^ 32 / 0x1FF00000 = 8 := by decide
  have rest : 2 ^ 32 % 0x1FF00000 = 0x800000 := by decide
  rw [card_remainder below, whole, rest]
  by_cases band : v < 0x800000
  · rw [if_pos band, if_pos band]
  · rw [if_neg band, if_neg band]

/-- The raw words that give a parameter of a state in a derivation: nine for those in a band of the regime,
    eight for the others, and none outside. -/
theorem parameter_bias (q : Word32) :
    (∀ stateBlock paramBlock, ∃ start, stateOf (paramsOf stateBlock paramBlock) = warmup start ∧
        start.alpha = clampParam (clampParam (wordOf paramBlock.val 0)) ∧
          start.gamma = clampParam (clampParam (wordOf paramBlock.val 4)) ∧
            start.mu = clampParam (clampParam (wordOf paramBlock.val 8)) ∧
              start.sigma = clampParam (clampParam (wordOf paramBlock.val 12))) ∧
      Nat.card { raw : Word32 // clampParam (clampParam raw) = q } =
        if ¬ ParamOk q then 0 else if 0x700000 ≤ above q ∧ above q < 0xF00000 then 9 else 8 := by
  refine ⟨fun stateBlock paramBlock => ⟨startOf (paramsOf stateBlock paramBlock), rfl, rfl, rfl, rfl, rfl⟩, ?_⟩
  by_cases inside : ParamOk q
  · have words : { raw : Word32 // clampParam (clampParam raw) = q } ≃
        { raw : Word32 // raw.toNat % 0x1FF00000 = (above q + 0x1FF00000 - 0x700000) % 0x1FF00000 } :=
      Equiv.subtypeEquivRight fun raw => clamped_twice_iff inside raw
    have distance := above_lt inside
    have below : (above q + 0x1FF00000 - 0x700000) % 0x1FF00000 < 0x1FF00000 := Nat.mod_lt _ (by decide)
    rw [if_neg (not_not_intro inside), Nat.card_congr words, card_place below]
    by_cases band : 0x700000 ≤ above q ∧ above q < 0xF00000
    · rw [if_pos band, if_pos (by omega)]
    · rw [if_neg band, if_neg (by omega)]
  · rw [if_pos inside, Nat.card_eq_zero]
    refine Or.inl ⟨fun raw => inside ?_⟩
    rw [← raw.property]
    exact clampParam_ok _

end Eahcm.Clamps
