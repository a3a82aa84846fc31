import Mathlib.Data.List.Nodup
import Eahcm.XorLinear

/-!
Shift registers with taps, fed with a stream of bits. The register after two streams differs by
the sum of one term for each bit in which they differ (`run_difference`). A sum over few enough
neighbouring bits is not zero as long as the top tap is set, whatever the other taps are
(`run_injective_window`); that no sum over at most four bits is zero depends on the taps and on the
length of the streams, and is checked by a sieve (`run_injective_few`).
-/
namespace Eahcm.ShiftRegisters
open Eahcm.XorLinear
variable {w : Nat}

/-- The register with its lowest bit alone. -/
def one (w : Nat) : BitVec w := BitVec.twoPow w 0
/-- One place down, with the taps when a bit falls out. -/
def shift (taps r : BitVec w) : BitVec w := (r >>> 1) ^^^ (if r.getLsbD 0 then taps else 0#w)
/-- The register after the first bits of a stream, each added to its lowest bit before a shift. -/
def run (taps : BitVec w) (stream : Nat → Bool) (r : BitVec w) : Nat → BitVec w
  | 0 => r
  | n + 1 => shift taps (run taps stream r n ^^^ (if stream n then one w else 0#w))

theorem getLsbD_shift (taps r : BitVec w) (i : Nat) :
    (shift taps r).getLsbD i = (r.getLsbD (i + 1) ^^ (r.getLsbD 0 && taps.getLsbD i)) := by
  rw [shift, BitVec.getLsbD_xor, BitVec.getLsbD_ushiftRight, Nat.add_comm]
  cases r.getLsbD 0 <;> simp

theorem shift_additive (taps : BitVec w) : Additive (shift taps) := by
  intro a b
  apply BitVec.eq_of_getLsbD_eq
  intro i _
  simp only [getLsbD_shift, BitVec.getLsbD_xor]
  cases a.getLsbD 0 <;> cases b.getLsbD 0 <;> cases a.getLsbD (i + 1) <;> cases b.getLsbD (i + 1) <;> simp

/-- With its top tap set, a register loses nothing in a shift. -/
theorem shift_injective {taps : BitVec w} (top : taps.getLsbD (w - 1) = true) : Function.Injective (shift taps) := by
  apply (shift_additive taps).injective_of_kernel
  intro r zero
  have bits (i : Nat) : (r.getLsbD (i + 1) ^^ (r.getLsbD 0 && taps.getLsbD i)) = false := by
    rw [← getLsbD_shift, zero, BitVec.getLsbD_zero]
  -- nothing comes into the top place but what falls out of the lowest
  have fallen : r.getLsbD 0 = false := by
    have above : r.getLsbD (w - 1 + 1) = false := BitVec.getLsbD_of_ge r _ (by omega)
    simpa [above, top] using bits (w - 1)
  apply BitVec.eq_of_getLsbD_eq
  intro i _
  cases i with
  | zero => simpa using fallen
  | succ i => simpa [fallen] using bits i

theorem eq_zero_of_iterate_shift {taps : BitVec w} (top : taps.getLsbD (w - 1) = true) {n : Nat} {r : BitVec w}
    (zero : (shift taps)^[n] r = 0#w) : r = 0#w :=
  (shift_injective top).iterate n (zero.trans ((shift_additive taps).iterate n).zero.symm)

/-- A single bit comes down to the lowest place. -/
theorem iterate_shift_twoPow (taps : BitVec w) {i : Nat} (inside : i < w) :
    (shift taps)^[i] (BitVec.twoPow w i) = one w := by
  induction i with
  | zero => rfl
  | succ i ih =>
    have down : shift taps (BitVec.twoPow w (i + 1)) = BitVec.twoPow w i := by
      apply BitVec.eq_of_getLsbD_eq
      intro j _
      have low : (BitVec.twoPow w (i + 1)).getLsbD 0 = false := by simp [BitVec.getLsbD_twoPow]
      have inside' : i < w := by omega
      simp [getLsbD_shift, low, BitVec.getLsbD_twoPow, inside, inside']
    rw [Function.iterate_succ_apply, down, ih (by omega)]

section
variable (taps : BitVec w)

/-- As many bits as fit the register are added to it at once. -/
theorem run_add (stream : Nat → Bool) (r : BitVec w) (n : Nat) {k : Nat} (fits : k ≤ w) (bits : BitVec w)
    (here : ∀ i < k, bits.getLsbD i = stream (n + i)) (above : ∀ i ≥ k, bits.getLsbD i = false) :
    run taps stream r (n + k) = (shift taps)^[k] (run taps stream r n ^^^ bits) := by
  induction k generalizing bits with
  | zero =>
    have none : bits = 0#w := BitVec.eq_of_getLsbD_eq fun i _ => by simp [above i (Nat.zero_le i)]
    simp [none]
  | succ k ih =>
    have last : (if stream (n + k) then one w else 0#w) =
        (shift taps)^[k] (if bits.getLsbD k then BitVec.twoPow w k else 0#w) := by
      rw [← here k (by omega)]
      by_cases set : bits.getLsbD k = true
      · rw [if_pos set, if_pos set, iterate_shift_twoPow taps (by omega)]
      · rw [if_neg set, if_neg set, ((shift_additive taps).iterate k).zero]
    have rest := ih (by omega) (clearBit bits k)
      (fun i below => by
        rw [getLsbD_clearBit, here i (by omega)]
        simp [Nat.ne_of_gt below])
      (fun i beyond => by
        rw [getLsbD_clearBit]
        by_cases same : k = i
        · simp [same]
        · simp [above i (by omega)])
    rw [← Nat.add_assoc, run, rest, last, ← (shift_additive taps).iterate k, BitVec.xor_assoc, xor_clearBit,
      Function.iterate_succ_apply']

/-- The places before `n` in which two streams differ. -/
def flips (f g : Nat → Bool) (n : Nat) : List Nat := (List.range n).filter fun p => f p != g p
/-- What is left of a bit after the shifts from its place to the end of a stream. -/
def traces (n : Nat) (places : List Nat) : List (BitVec w) := places.map fun p => (shift taps)^[n - p] (one w)

/-- The difference that two streams make is the sum of the traces of their flips. -/
theorem run_difference (f g : Nat → Bool) (r : BitVec w) (n : Nat) :
    run taps f r n ^^^ run taps g r n = xorSum (traces taps n (flips f g n)) := by
  induction n with
  | zero => simp [run, traces, flips]
  | succ n ih =>
    have older : traces taps (n + 1) (flips f g n) = (traces taps n (flips f g n)).map (shift taps) := by
      rw [traces, traces, List.map_map]
      apply List.map_congr_left
      intro p before
      have before : p < n := List.mem_range.mp (List.mem_of_mem_filter before)
      rw [Function.comp_apply, ← Function.iterate_succ_apply' (shift taps), Nat.succ_sub (by omega)]
    have newer : xorSum (traces taps (n + 1) ([n].filter fun p => f p != g p)) =
        shift taps ((if f n then one w else 0#w) ^^^ (if g n then one w else 0#w)) := by
      have zero := (shift_additive taps).zero
      cases hf : f n <;> cases hg : g n <;> simp [traces, hf, hg, zero]
    have split : traces taps (n + 1) (flips f g (n + 1)) =
        traces taps (n + 1) (flips f g n) ++ traces taps (n + 1) ([n].filter fun p => f p != g p) := by
      rw [flips, List.range_succ, List.filter_append, traces, List.map_append]
      rfl
    rw [split, xorSum_append, older, newer, ← (shift_additive taps).map_xorSum, ← ih, run, run,
      ← shift_additive taps, ← shift_additive taps]
    congr 1
    ac_rfl

/-- Streams without a flip agree. -/
theorem agree_of_flips {f g : Nat → Bool} {n : Nat} (none : flips f g n = []) {p : Nat} (inside : p < n) : f p = g p := by
  have kept := List.filter_eq_nil_iff.mp none p (List.mem_range.mpr inside)
  simpa using kept
theorem mem_flips {f g : Nat → Bool} {n p : Nat} : p ∈ flips f g n ↔ p < n ∧ f p ≠ g p := by
  simp [flips]
theorem flips_sorted (f g : Nat → Bool) (n : Nat) : (flips f g n).Pairwise (· < ·) :=
  List.pairwise_lt_range.filter _
theorem sum_of_run_eq {f g : Nat → Bool} {r : BitVec w} {n : Nat} (same : run taps f r n = run taps g r n) :
    xorSum (traces taps n (flips f g n)) = 0#w := by
  rw [← run_difference taps f g r, same, BitVec.xor_self]
end

/-- The traces of places that fit the register, all as far from the end as the first one. -/
theorem traces_window (taps : BitVec w) {n first : Nat} {places : List Nat} (before : ∀ p ∈ places, p < n)
    (window : ∀ p ∈ places, first ≤ p ∧ p < first + w) :
    traces taps n places = (places.map fun p => BitVec.twoPow w (p - first)).map (shift taps)^[n - first] := by
  rw [traces, List.map_map]
  apply List.map_congr_left
  intro p within
  have before := before p within
  obtain ⟨low, high⟩ := window p within
  have distance : n - first = n - p + (p - first) := by omega
  rw [Function.comp_apply, distance, Function.iterate_add_apply, iterate_shift_twoPow taps (by omega)]

/-- Two streams that leave a register the same do not differ in one window of its width alone. -/
theorem run_injective_window {taps : BitVec w} (top : taps.getLsbD (w - 1) = true) {f g : Nat → Bool} {r : BitVec w}
    {n first : Nat} (window : ∀ p < n, f p ≠ g p → first ≤ p ∧ p < first + w)
    (same : run taps f r n = run taps g r n) : ∀ p < n, f p = g p := by
  have places : ∀ p ∈ flips f g n, first ≤ p ∧ p < first + w := fun p flipped =>
    window p (mem_flips.mp flipped).1 (mem_flips.mp flipped).2
  have sum := sum_of_run_eq taps same
  rw [traces_window taps (fun p flipped => (mem_flips.mp flipped).1) places,
    ← ((shift_additive taps).iterate _).map_xorSum] at sum
  have sum : xorSum ((flips f g n).map fun p => BitVec.twoPow w (p - first)) = 0#w := eq_zero_of_iterate_shift top sum
  have none : flips f g n = [] := by
    by_contra some
    obtain ⟨p, flipped⟩ := List.exists_mem_of_ne_nil _ some
    obtain ⟨low, high⟩ := places p flipped
    have distinct : ((flips f g n).map (· - first)).Nodup := by
      refine List.Nodup.map_on (fun a left b right same => ?_) ((flips_sorted f g n).imp Nat.ne_of_lt)
      have := places a left
      have := places b right
      omega
    have bit := getLsbD_xorSum_twoPow (w := w) distinct (show p - first < w by omega)
    have member : p - first ∈ (flips f g n).map (· - first) := List.mem_map_of_mem flipped
    rw [List.map_map, Function.comp_def, sum] at bit
    simp [member] at bit
  exact fun p inside => agree_of_flips none inside

/-- The residues that numbers have modulo another, as the bits of a number. -/
def residues (numbers : List Nat) (modulus : Nat) : Nat :=
  numbers.foldl (fun bits number => bits ||| 1 <<< (number % modulus)) 0
/-- Some moduli with the residues of the numbers. -/
def sieve (moduli numbers : List Nat) : List (Nat × Nat) := moduli.map fun modulus => (modulus, residues numbers modulus)
/-- A number with a residue that none of those in the sieve has. -/
def passes (sieve : List (Nat × Nat)) (number : Nat) : Bool := sieve.any fun s => !s.2.testBit (number % s.1)
/-- The exclusive or of a number with any two of a list passes. -/
def pairsPass (sieve : List (Nat × Nat)) (number : Nat) : List Nat → Bool
  | [] => true
  | a :: rest => (rest.all fun b => passes sieve (number ^^^ a ^^^ b)) && pairsPass sieve number rest

/-- The shift of a register that is given as a number. -/
def shiftNat (taps r : Nat) : Nat := (r >>> 1) ^^^ (r % 2 * taps)
/-- The registers that follow one. -/
def following (taps : Nat) : Nat → Nat → List Nat
  | 0, _ => []
  | count + 1, r => shiftNat taps r :: following taps count (shiftNat taps r)
/-- A check that no sum over at most four bits is zero, for streams of as many bits as `count` and
    one. -/
def fewApart (taps one count : Nat) (moduli : List Nat) : Bool :=
  pairsPass (sieve moduli (0 :: following taps count one)) one (0 :: following taps count one)

theorem testBit_residues {numbers : List Nat} (modulus : Nat) {number : Nat} (member : number ∈ numbers) :
    (residues numbers modulus).testBit (number % modulus) = true := by
  have kept (numbers : List Nat) (bits i : Nat) (set : bits.testBit i = true ∨ ∃ number ∈ numbers, number % modulus = i) :
      (numbers.foldl (fun bits number => bits ||| 1 <<< (number % modulus)) bits).testBit i = true := by
    induction numbers generalizing bits with
    | nil => simpa using set
    | cons a rest ih =>
      apply ih
      rw [Nat.testBit_or, Nat.one_shiftLeft, Nat.testBit_two_pow]
      rcases set with set | ⟨number, member, rfl⟩
      · exact Or.inl (by simp [set])
      · rcases List.mem_cons.mp member with rfl | later
        · exact Or.inl (by simp)
        · exact Or.inr ⟨number, later, rfl⟩
  exact kept numbers 0 _ (Or.inr ⟨number, member, rfl⟩)
theorem not_mem_of_passes {moduli numbers : List Nat} {number : Nat}
    (passed : passes (sieve moduli numbers) number = true) : number ∉ numbers := by
  intro member
  obtain ⟨s, chosen, fresh⟩ := List.any_eq_true.mp passed
  obtain ⟨modulus, _, rfl⟩ := List.mem_map.mp chosen
  simp [testBit_residues modulus member] at fresh
theorem pairwise_of_pairsPass {s : List (Nat × Nat)} {number : Nat} {numbers : List Nat}
    (passed : pairsPass s number numbers = true) :
    numbers.Pairwise fun a b => passes s (number ^^^ a ^^^ b) = true := by
  induction numbers with
  | nil => exact List.Pairwise.nil
  | cons a rest ih =>
    simp only [pairsPass, Bool.and_eq_true, List.all_eq_true] at passed
    exact List.Pairwise.cons passed.1 (ih passed.2)

theorem toNat_shift (taps r : BitVec w) : (shift taps r).toNat = shiftNat taps.toNat r.toNat := by
  rw [shift, shiftNat, BitVec.toNat_xor, BitVec.toNat_ushiftRight]
  rcases Nat.mod_two_eq_zero_or_one r.toNat with even | odd
  · have low : r.getLsbD 0 = false := by simp [BitVec.getLsbD, even]
    simp [low, even]
  · have low : r.getLsbD 0 = true := by simp [BitVec.getLsbD, odd]
    simp [low, odd]
theorem getElem?_following (taps : BitVec w) (count : Nat) (r : BitVec w) {k : Nat} (inside : k < count) :
    (following taps.toNat count r.toNat)[k]? = some ((shift taps)^[k + 1] r).toNat := by
  induction count generalizing r k with
  | zero => omega
  | succ count ih =>
    rw [following, ← toNat_shift]
    cases k with
    | zero => rfl
    | succ k => simpa using ih (shift taps r) (by omega)

/-- The trace of a bit so many places back, or none. -/
def trace (taps : BitVec w) : Nat → BitVec w
  | 0 => 0#w
  | k + 1 => (shift taps)^[k + 1] (one w)
theorem trace_of_pos (taps : BitVec w) {k : Nat} (positive : 0 < k) : trace taps k = (shift taps)^[k] (one w) := by
  cases k with
  | zero => omega
  | succ k => rfl

/-- What the check says: no two traces and a bit sum to a third trace, some of them empty. -/
theorem trace_ne {taps : BitVec w} {count : Nat} {moduli : List Nat}
    (check : fewApart taps.toNat (one w).toNat count moduli = true) {i j k : Nat} (order : i < j) (inside : j ≤ count)
    (inside' : k ≤ count) : one w ^^^ trace taps i ^^^ trace taps j ≠ trace taps k := by
  have traces {k : Nat} (inside : k ≤ count) :
      (0 :: following taps.toNat count (one w).toNat)[k]? = some (trace taps k).toNat := by
    cases k with
    | zero => simp [trace]
    | succ k => exact getElem?_following taps count (one w) (by omega)
  obtain ⟨inside₁, first⟩ := List.getElem?_eq_some_iff.mp (traces (show i ≤ count by omega))
  obtain ⟨inside₂, second⟩ := List.getElem?_eq_some_iff.mp (traces inside)
  have passed := List.pairwise_iff_getElem.mp (pairwise_of_pairsPass check) i j inside₁ inside₂ order
  rw [first, second] at passed
  intro sum
  refine not_mem_of_passes passed ?_
  rw [← BitVec.toNat_xor, ← BitVec.toNat_xor, sum]
  exact List.mem_of_getElem? (traces inside')

/-- The last place of a sum gives all others their distance from it. -/
theorem traces_concat (taps : BitVec w) {n last : Nat} {front : List Nat} (before : ∀ p ∈ front, p < last)
    (inside : last < n) :
    xorSum (traces taps n (front ++ [last])) =
      (shift taps)^[n - last] (xorSum (front.map fun p => trace taps (last - p)) ^^^ one w) := by
  have further : traces taps n front = (front.map fun p => trace taps (last - p)).map (shift taps)^[n - last] := by
    rw [traces, List.map_map]
    apply List.map_congr_left
    intro p within
    have before := before p within
    have distance : n - p = n - last + (last - p) := by omega
    rw [Function.comp_apply, trace_of_pos taps (by omega), distance, Function.iterate_add_apply]
  rw [(shift_additive taps).iterate, ((shift_additive taps).iterate _).map_xorSum, ← further, traces, List.map_append,
    xorSum_append]
  simp [traces]

/-- No sum of at most three traces is a bit. -/
theorem sum_ne_one {taps : BitVec w} (top : taps.getLsbD (w - 1) = true) {count : Nat} {moduli : List Nat}
    (check : fewApart taps.toNat (one w).toNat count moduli = true) {last : Nat} {front : List Nat}
    (before : ∀ p ∈ front, p < last) (sorted : front.Pairwise (· < ·)) (inside : last ≤ count) (few : front.length ≤ 3) :
    xorSum (front.map fun p => trace taps (last - p)) ≠ one w := by
  intro sum
  -- an empty trace takes the part of a place that is not there
  rcases front with _ | ⟨a, _ | ⟨b, _ | ⟨c, _ | ⟨d, rest⟩⟩⟩⟩
  · have positive : 0 < w := by
      have := BitVec.lt_of_getLsbD top
      omega
    have bit := congrArg (·.getLsbD 0) sum
    simp [one, positive] at bit
  · have first := before a (by simp)
    apply trace_ne check (show 0 < last - a by omega) (show last - a ≤ count by omega) (Nat.zero_le count)
    rw [← sum]
    simp [trace]
  · have first := before a (by simp)
    have second := before b (by simp)
    apply trace_ne check (show 0 < last - b by omega) (show last - b ≤ count by omega) (show last - a ≤ count by omega)
    rw [← sum]
    simp only [List.map_cons, List.map_nil, xorSum_cons, xorSum_nil, BitVec.xor_zero, trace]
    rw [BitVec.xor_assoc, BitVec.xor_self, BitVec.xor_zero]
  · have first := before a (by simp)
    have second := before b (by simp)
    have third := before c (by simp)
    have order : b < c := by
      have := sorted.tail
      simpa using this
    apply trace_ne check (show last - c < last - b by omega) (show last - b ≤ count by omega)
      (show last - a ≤ count by omega)
    rw [← sum]
    calc xorSum ([a, b, c].map fun p => trace taps (last - p)) ^^^ trace taps (last - c) ^^^ trace taps (last - b)
        = trace taps (last - a) ^^^ (trace taps (last - b) ^^^ trace taps (last - b)) ^^^
            (trace taps (last - c) ^^^ trace taps (last - c)) := by
          simp only [List.map_cons, List.map_nil, xorSum_cons, xorSum_nil, BitVec.xor_zero]
          ac_rfl
      _ = trace taps (last - a) := by simp
  · simp only [List.length_cons] at few
    omega

/-- Two streams that leave a register the same do not differ in one to four bits. -/
theorem run_injective_few {taps : BitVec w} (top : taps.getLsbD (w - 1) = true) {count : Nat} {moduli : List Nat}
    (check : fewApart taps.toNat (one w).toNat count moduli = true) {f g : Nat → Bool} {r : BitVec w}
    (few : (flips f g (count + 1)).length ≤ 4) (same : run taps f r (count + 1) = run taps g r (count + 1)) :
    ∀ p < count + 1, f p = g p := by
  have none : flips f g (count + 1) = [] := by
    rcases List.eq_nil_or_concat' (flips f g (count + 1)) with none | ⟨front, last, split⟩
    · exact none
    have sorted := flips_sorted f g (count + 1)
    have sum := sum_of_run_eq taps same
    have inside : last < count + 1 := (mem_flips.mp (split ▸ List.mem_concat_self)).1
    rw [split] at sorted sum few
    have few : front.length ≤ 3 := by
      rw [List.length_append, List.length_singleton] at few
      omega
    have before : ∀ p ∈ front, p < last := fun p within =>
      (List.pairwise_append.mp sorted).2.2 p within last (List.mem_singleton_self last)
    have sorted := (List.pairwise_append.mp sorted).1
    rw [traces_concat taps before inside] at sum
    have sum := eq_zero_of_iterate_shift top sum
    exact (sum_ne_one top check before sorted (by omega) few (BitVec.xor_eq_zero_iff.mp sum)).elim
  exact fun p inside => agree_of_flips none inside

end Eahcm.ShiftRegisters
