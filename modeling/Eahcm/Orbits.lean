import Mathlib.Data.Nat.ModEq
import Eahcm.Equations

/-!
Runs of the state machine. The counter counts steps and wraps; the perturbation a step adds is
the counter rotated and masked, so it returns only when the counter does, and no state returns
before (`epsilon_period`). The parameters change at the multiples of the drift interval and
nowhere else, each time by the words before the step (`drift_schedule`).
-/
namespace Eahcm.Orbits
open Eahcm.Types Eahcm.Arithmetic Eahcm.States Eahcm.Equations

theorem toNat_counter (n : Nat) (s : State) : (step^[n] s).counter.toNat = (s.counter.toNat + n) % 2 ^ 32 := by
  rw [iterate_counter, BitVec.toNat_add, BitVec.toNat_ofNat, Nat.add_mod_mod]

/-- After different numbers of steps the counter is the same when a multiple of `2 ^ 32` lies
    between. -/
theorem counter_eq_iff (s : State) (i j : Nat) : (step^[i] s).counter = (step^[j] s).counter ↔ i ≡ j [MOD 2 ^ 32] := by
  rw [← BitVec.toNat_inj, toNat_counter, toNat_counter]
  exact Nat.ModEq.add_iff_left (Nat.ModEq.refl _)

theorem epsilon_eq_iff (s s' : State) : epsilon s = epsilon s' ↔ s.counter = s'.counter := by
  rw [epsilon, epsilon, BitVec.xor_left_inj]
  exact (rol32_injective (show rotCtrEps ≤ 32 by decide)).eq_iff

/-- The counter at which a step adds a given word. -/
def counterOf (v : Word32) : Word32 := rol32 (v ^^^ epsilonConst) (32 - rotCtrEps)

theorem epsilon_counterOf (s : State) (v : Word32) (here : s.counter = counterOf v) : epsilon s = v := by
  have turned : rol32 (counterOf v) rotCtrEps = v ^^^ epsilonConst := rol32_rol32 _ (show 32 - rotCtrEps ≤ 32 by decide)
  rw [epsilon, here, turned, BitVec.xor_assoc, BitVec.xor_self, BitVec.xor_zero]

/-- In `2 ^ 32` consecutive steps each word is added once. -/
theorem epsilon_once (s : State) (i : Nat) (v : Word32) : ∃! k, k < 2 ^ 32 ∧ epsilon (step^[i + k] s) = v := by
  have reached : (step^[i + (counterOf v - (step^[i] s).counter).toNat] s).counter = counterOf v := by
    rw [Nat.add_comm, Function.iterate_add_apply, iterate_counter, BitVec.ofNat_toNat, BitVec.setWidth_eq,
      BitVec.add_comm, BitVec.sub_add_cancel]
  refine ⟨(counterOf v - (step^[i] s).counter).toNat, ⟨BitVec.isLt _, epsilon_counterOf _ v reached⟩, ?_⟩
  rintro k ⟨below, used⟩
  have same := (epsilon_eq_iff _ _).mp (used.trans (epsilon_counterOf _ v reached).symm)
  have congruent := Nat.ModEq.add_left_cancel' i ((counter_eq_iff s _ _).mp same)
  exact congruent.eq_of_lt_of_lt below (BitVec.isLt _)

/-- What a step adds to the first word repeats every `2 ^ 32` steps and not before, and no state
    returns except after a multiple of `2 ^ 32` steps. -/
theorem epsilon_period (s : State) :
    (∀ i, (step^[i + 1] s).x = L (step^[i] s).x (step^[i] s).alpha +
        (F (step^[i] s).z ^^^ rol32 (step^[i] s).y rotYInX) + epsilon (step^[i] s)) ∧
      (∀ i j, epsilon (step^[i] s) = epsilon (step^[j] s) ↔ i ≡ j [MOD 2 ^ 32]) ∧
      (∀ i v, ∃! k, k < 2 ^ 32 ∧ epsilon (step^[i + k] s) = v) ∧ ∀ n, 0 < n → step^[n] s = s → 2 ^ 32 ∣ n := by
  refine ⟨fun i => ?_, fun i j => ?_, epsilon_once s, fun n _ returns => ?_⟩
  · rw [Function.iterate_succ_apply']
    exact congrArg Prod.fst (words_step (step^[i] s))
  · rw [epsilon_eq_iff, counter_eq_iff]
  · have same : (step^[n] s).counter = (step^[0] s).counter := by rw [returns, Function.iterate_zero_apply]
    exact (Nat.modEq_zero_iff_dvd).mp ((counter_eq_iff s n 0).mp same)

/-- The four chaotic parameters. -/
structure Params where
  alpha : Word32
  gamma : Word32
  mu : Word32
  sigma : Word32
deriving DecidableEq

def params (s : State) : Params := ⟨s.alpha, s.gamma, s.mu, s.sigma⟩
/-- The parameters after a drift by the words of a state. -/
def drift (p : Params) (before : State) : Params :=
  let fold := before.x ^^^ before.y ^^^ before.z ^^^ before.w
  ⟨clampParam (p.alpha ^^^ rol32 fold rotDriftAlpha), clampParam (p.gamma ^^^ rol32 fold rotDriftGamma),
    clampParam (p.mu ^^^ rol32 fold rotDriftMu), clampParam (p.sigma ^^^ rol32 fold rotDriftSigma)⟩
/-- Which of the steps `1` to `n` drift, from a counter on. -/
def driftSteps (counter n : Nat) : List Nat := (List.range' 1 n).filter fun k => 64 ∣ counter + k

theorem driftSteps_succ (counter n : Nat) :
    driftSteps counter (n + 1) = driftSteps counter n ++ if 64 ∣ counter + (n + 1) then [n + 1] else [] := by
  rw [driftSteps, List.range'_concat, List.filter_append, driftSteps]
  congr 1
  by_cases drifts : 64 ∣ counter + (n + 1)
  · simp [drifts, Nat.add_comm 1 n]
  · simp [drifts, Nat.add_comm 1 n]

theorem length_driftSteps (counter n : Nat) : (driftSteps counter n).length = (counter % 64 + n) / 64 := by
  induction n with
  | zero =>
    rw [Nat.add_zero, Nat.div_eq_of_lt (Nat.mod_lt _ (by decide))]
    rfl
  | succ n ih =>
    rw [driftSteps_succ, List.length_append, ih]
    by_cases drifts : 64 ∣ counter + (n + 1)
    · rw [if_pos drifts, List.length_singleton]
      omega
    · rw [if_neg drifts, List.length_nil]
      omega

/-- A step drifts when it brings the counter to a multiple of the drift interval, also where
    the counter wraps. -/
theorem params_step (s : State) :
    params (step s) = if 64 ∣ s.counter.toNat + 1 then drift (params s) s else params s := by
  have wraps : 64 ∣ (s.counter + 1).toNat ↔ 64 ∣ s.counter.toNat + 1 := by
    have one : (1 : Word32).toNat = 1 := rfl
    rw [BitVec.toNat_add, one]
    omega
  rcases stepWith_cases L s with ⟨drifts, result⟩ | ⟨stays, result⟩
  · rw [if_pos (wraps.mp ((drifts_iff _).mp drifts)), step, result]
    rfl
  · rw [if_neg (mt wraps.mpr (mt (drifts_iff _).mpr stays)), step, result]
    rfl

theorem params_iterate_succ (n : Nat) (s : State) :
    params (step^[n + 1] s) =
      if 64 ∣ s.counter.toNat + (n + 1) then drift (params (step^[n] s)) (step^[n] s) else params (step^[n] s) := by
  have wraps : 64 ∣ (s.counter.toNat + n) % 2 ^ 32 + 1 ↔ 64 ∣ s.counter.toNat + (n + 1) := by omega
  rw [Function.iterate_succ_apply', params_step, toNat_counter]
  exact if_congr wraps rfl rfl

/-- The parameters of a run are those of the scheduled drifts, one after the other. -/
theorem params_iterate (n : Nat) (s : State) : params (step^[n] s) =
    (driftSteps s.counter.toNat n).foldl (fun p k => drift p (step^[k - 1] s)) (params s) := by
  induction n with
  | zero => rfl
  | succ n ih =>
    rw [params_iterate_succ, driftSteps_succ, List.foldl_append, ← ih]
    by_cases drifts : 64 ∣ s.counter.toNat + (n + 1)
    · rw [if_pos drifts, if_pos drifts]
      rfl
    · rw [if_neg drifts, if_neg drifts]
      rfl

theorem params_between {m n : Nat} (later : m ≤ n) (s : State)
    (none : ∀ k, m < k → k ≤ n → ¬ 64 ∣ s.counter.toNat + k) : params (step^[n] s) = params (step^[m] s) := by
  induction n, later using Nat.le_induction with
  | base => rfl
  | succ n later ih =>
    rw [params_iterate_succ, if_neg (none (n + 1) (by omega) (Nat.le_refl _))]
    exact ih fun k after before => none k after (by omega)

/-- In a run the counter counts modulo `2 ^ 32`, the parameters drift at the multiples of 64
    alone, by the words before the step, and the number of drifts is known. -/
theorem drift_schedule (s : State) (n : Nat) :
    (step^[n] s).counter.toNat = (s.counter.toNat + n) % 2 ^ 32 ∧
      params (step^[n] s) = (driftSteps s.counter.toNat n).foldl (fun p k => drift p (step^[k - 1] s)) (params s) ∧
      (driftSteps s.counter.toNat n).length = (s.counter.toNat % 64 + n) / 64 ∧
      ∀ m ≤ n, (∀ k, m < k → k ≤ n → ¬ 64 ∣ s.counter.toNat + k) → params (step^[n] s) = params (step^[m] s) :=
  ⟨toNat_counter n s, params_iterate n s, length_driftSteps _ n, fun _ later none => params_between later s none⟩

end Eahcm.Orbits
