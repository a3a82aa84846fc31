import Mathlib.Logic.Function.Iterate
import Eahcm.Arithmetic

/-!
The state machine (`state.hpp`): how a state is made, advanced by one step, drifted and turned
into a word of keystream. A step is written over the logistic driver it is compiled with;
both forms of the driver give the same runs (`builds_agree`). The four parameters never
leave the chaotic regime once they are in it (`step_inRegime`).
-/
namespace Eahcm.States
open Eahcm.Types Eahcm.Arithmetic

def clampParam (raw : Word32) : Word32 := paramFloor + raw % driftMask

def guardAbsorbing (v : Word32) : Word32 :=
  if v = 0x00000000 then sentinelZero else if v = 0xFFFFFFFF then sentinelOnes else v

def makeState (x y z w alpha gamma mu sigma : Word32) : State where
  x := guardAbsorbing x
  y := guardAbsorbing y
  z := guardAbsorbing z
  w := guardAbsorbing w
  alpha := clampParam alpha
  gamma := clampParam gamma
  mu := clampParam mu
  sigma := clampParam sigma
  counter := 0

/-- The parameters folded with the words of the state before the step. -/
def driftParameters (s : State) (xPrev yPrev zPrev wPrev : Word32) : State :=
  let fold := xPrev ^^^ yPrev ^^^ zPrev ^^^ wPrev
  { s with
    alpha := clampParam (s.alpha ^^^ rol32 fold rotDriftAlpha)
    gamma := clampParam (s.gamma ^^^ rol32 fold rotDriftGamma)
    mu := clampParam (s.mu ^^^ rol32 fold rotDriftMu)
    sigma := clampParam (s.sigma ^^^ rol32 fold rotDriftSigma) }

/-- The four state words and the counter after a step, before any drift. -/
def advanceWords (driver : Word32 → Word32 → Word32) (s : State) : State :=
  let eps := rol32 s.counter rotCtrEps ^^^ epsilonConst
  { s with
    counter := s.counter + 1
    x := driver s.x s.alpha + (F s.z ^^^ rol32 s.y rotYInX) + eps
    y := driver s.y s.gamma + (R s.w ^^^ rol32 s.x rotXInY)
    z := driver s.z s.mu + (F s.x ^^^ rol32 s.w rotWInZ)
    w := driver s.w s.sigma + (R s.y ^^^ rol32 s.z rotZInW) }

/-- One iteration with the given logistic driver; it drifts when the incremented counter is a
    multiple of the drift interval. -/
def stepWith (driver : Word32 → Word32 → Word32) (s : State) : State :=
  let next := advanceWords driver s
  if next.counter &&& (driftInterval - 1) = 0 then driftParameters next s.x s.y s.z s.w else next
def step (s : State) : State := stepWith L s

/-- The 64-bit keystream word of a state. -/
def extract (s : State) : Word64 :=
  let outHi := (s.x + s.z) ^^^ rol32 s.y rotExtract
  let outLo := (s.y + s.w) ^^^ rol32 s.x rotExtract
  (outHi.setWidth 64 <<< 32) ||| outLo.setWidth 64

def warmup (s : State) : State := step^[warmupSteps] s

/-- What one step can do: the words and the counter advance, and the parameters drift or stay. -/
theorem stepWith_cases (driver : Word32 → Word32 → Word32) (s : State) :
    ((s.counter + 1) &&& (driftInterval - 1) = 0 ∧
        stepWith driver s = driftParameters (advanceWords driver s) s.x s.y s.z s.w) ∨
      ((s.counter + 1) &&& (driftInterval - 1) ≠ 0 ∧ stepWith driver s = advanceWords driver s) := by
  by_cases drifts : (s.counter + 1) &&& (driftInterval - 1) = 0
  · left
    exact ⟨drifts, if_pos drifts⟩
  · right
    exact ⟨drifts, if_neg drifts⟩

@[simp] theorem step_counter (s : State) : (step s).counter = s.counter + 1 := by
  rcases stepWith_cases L s with ⟨_, result⟩ | ⟨_, result⟩ <;> rw [step, result] <;> rfl

/-- The counter counts steps modulo `2 ^ 32`. -/
theorem iterate_counter (n : Nat) (s : State) : (step^[n] s).counter = s.counter + BitVec.ofNat 32 n := by
  induction n with
  | zero => simp
  | succ n ih =>
    rw [Function.iterate_succ_apply', step_counter, ih, BitVec.add_assoc]
    congr 1
    exact (BitVec.ofNat_add n 1).symm

/-- The build with 128-bit integers and the build with split multiplication compute the same
    driver without any product or sum wrapping, and so the same states and words. -/
theorem builds_agree :
    (∀ v p, L v p = LSplit v p ∧ (L v p).toNat = (if quotient v p = 0 then 1 else quotient v p) ∧ Exact v p) ∧
      ∀ (s : State) (n : Nat), (stepWith LSplit)^[n] s = (stepWith L)^[n] s ∧
        extract ((stepWith LSplit)^[n] s) = extract ((stepWith L)^[n] s) := by
  constructor
  · intro v p
    exact ⟨by rw [LSplit_eq], toNat_L v p, exact v p⟩
  · intro s n
    rw [LSplit_eq]
    exact ⟨rfl, rfl⟩

-- a reference vector of the tests, over two drifts
example : step^[135] (makeState 2882400001 591751049 3168665891 1164413355 3759144960 3760193536 3761242112 3762290688) =
    ⟨1941135599, 1127469758, 972203872, 4290293819, 3764841732, 4058842335, 3992248182, 3832510189, 135⟩ := by
  decide +kernel

/-- A parameter in the deep chaotic regime. -/
def ParamOk (p : Word32) : Prop := paramFloor.toNat ≤ p.toNat ∧ p.toNat < paramCeiling.toNat

/-- All four parameters are in the regime. -/
structure InRegime (s : State) : Prop where
  alpha : ParamOk s.alpha
  gamma : ParamOk s.gamma
  mu : ParamOk s.mu
  sigma : ParamOk s.sigma

instance (p : Word32) : Decidable (ParamOk p) := inferInstanceAs (Decidable (_ ∧ _))
theorem inRegime_iff (s : State) :
    InRegime s ↔ ParamOk s.alpha ∧ ParamOk s.gamma ∧ ParamOk s.mu ∧ ParamOk s.sigma :=
  ⟨fun h => ⟨h.alpha, h.gamma, h.mu, h.sigma⟩, fun ⟨a, g, m, s⟩ => ⟨a, g, m, s⟩⟩
instance (s : State) : Decidable (InRegime s) := decidable_of_iff _ (inRegime_iff s).symm

/-- The addition in `clamp_param` is exact. -/
theorem toNat_clampParam (raw : Word32) :
    (clampParam raw).toNat = paramFloor.toNat + raw.toNat % driftMask.toNat := by
  have low : raw.toNat % driftMask.toNat < driftMask.toNat := Nat.mod_lt _ (by decide)
  have sum : paramFloor.toNat + driftMask.toNat ≤ 2 ^ 32 := by decide
  rw [clampParam, BitVec.toNat_add, BitVec.toNat_umod, Nat.mod_eq_of_lt (by omega)]
theorem clampParam_ok (raw : Word32) : ParamOk (clampParam raw) := by
  have low : raw.toNat % driftMask.toNat < driftMask.toNat := Nat.mod_lt _ (by decide)
  have ceiling : paramCeiling.toNat = paramFloor.toNat + driftMask.toNat := by decide
  constructor <;> rw [toNat_clampParam] <;> omega

theorem makeState_inRegime (x y z w alpha gamma mu sigma : Word32) :
    InRegime (makeState x y z w alpha gamma mu sigma) :=
  ⟨clampParam_ok alpha, clampParam_ok gamma, clampParam_ok mu, clampParam_ok sigma⟩
theorem driftParameters_inRegime (s : State) (x y z w : Word32) : InRegime (driftParameters s x y z w) :=
  ⟨clampParam_ok _, clampParam_ok _, clampParam_ok _, clampParam_ok _⟩

theorem step_inRegime {s : State} (inside : InRegime s) : InRegime (step s) := by
  rcases stepWith_cases L s with ⟨_, result⟩ | ⟨_, result⟩
  · rw [step, result]
    exact driftParameters_inRegime _ _ _ _ _
  · rw [step, result]
    exact ⟨inside.alpha, inside.gamma, inside.mu, inside.sigma⟩
theorem iterate_inRegime {s : State} (inside : InRegime s) (n : Nat) : InRegime (step^[n] s) := by
  induction n with
  | zero => exact inside
  | succ n ih =>
    rw [Function.iterate_succ_apply']
    exact step_inRegime ih

/-- The drift test is divisibility by the drift interval. -/
theorem drifts_iff (counter : Word32) : counter &&& (driftInterval - 1) = 0 ↔ 64 ∣ counter.toNat := by
  have mask : (counter &&& (driftInterval - 1)).toNat = counter.toNat % 64 := by
    rw [BitVec.toNat_and]
    exact Nat.and_two_pow_sub_one_eq_mod counter.toNat 6
  rw [← BitVec.toNat_inj, mask, Nat.dvd_iff_mod_eq_zero]
  rfl

/-- The step that ends in this state of the run drifts. -/
def DriftsAt (s : State) (k : Nat) : Prop := 0 < k ∧ (step^[k] s).counter &&& (driftInterval - 1) = 0

theorem driftsAt_iff (s : State) (k : Nat) : DriftsAt s k ↔ 0 < k ∧ 64 ∣ s.counter.toNat + k := by
  rw [DriftsAt, drifts_iff, iterate_counter, BitVec.toNat_add, BitVec.toNat_ofNat]
  omega
theorem inRegime_of_driftsAt {s : State} {n : Nat} (drifts : DriftsAt s n) : InRegime (step^[n] s) := by
  obtain ⟨positive, test⟩ := drifts
  obtain ⟨before, rfl⟩ : ∃ before, n = before + 1 := ⟨n - 1, by omega⟩
  rw [Function.iterate_succ_apply'] at test ⊢
  rw [step_counter] at test
  rcases stepWith_cases L (step^[before] s) with ⟨_, result⟩ | ⟨stays, _⟩
  · rw [step, result]
    exact driftParameters_inRegime _ _ _ _ _
  · exact absurd test stays

/-- Any state is in the regime after the first step that drifts, at most 64 steps on, and from then on. -/
theorem inRegime_within (s : State) :
    ∃ n ≤ 64, DriftsAt s n ∧ (∀ k < n, ¬ DriftsAt s k) ∧ ∀ k ≥ n, InRegime (step^[k] s) := by
  have low : s.counter.toNat % 64 < 64 := Nat.mod_lt _ (by decide)
  have drifts : DriftsAt s (64 - s.counter.toNat % 64) := by
    rw [driftsAt_iff]
    omega
  refine ⟨64 - s.counter.toNat % 64, by omega, drifts, fun k sooner => ?_, fun k later => ?_⟩
  · rw [driftsAt_iff]
    omega
  · obtain ⟨rest, rfl⟩ := Nat.exists_eq_add_of_le later
    rw [Nat.add_comm, Function.iterate_add_apply]
    exact iterate_inRegime (inRegime_of_driftsAt drifts) rest

end Eahcm.States
