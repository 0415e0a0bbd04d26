import Roga.Oblivious.Ct
import Roga.Oblivious.BinomialSolver
import Roga.Probability.Trials
import Roga.Search.Bisect

/-! The tails of `binomial_solver.rs` and the slack between shards, with their arithmetic over
the reals. The sums stop early; what they leave out is small next to what they have. -/
namespace Roga
open Binomial Finset Literal

/-- The loop over the remaining terms, with Kahan's correction. -/
noncomputable def tailLoop (ratio : Nat → ℝ) (past : Nat → Prop) [DecidablePred past] (s : Nat)
    (term sum correction : ℝ) : Nat → ℝ
  | 0 => sum
  | remaining + 1 =>
    let adjusted := term - correction
    let nextSum := sum + adjusted
    let correction := (nextSum - sum) - adjusted
    let sum := nextSum
    if remaining = 0 then sum
    else
      let term := term * ratio s
      if term = 0 ∨ (term < sum * (1 / 2 ^ 52) ∧ past s) then sum
      else tailLoop ratio past (s + 1) term sum correction remaining

noncomputable def binomPmf (n k : Nat) (p : ℝ) : ℝ :=
  if n < k then 0
  else if 1 ≤ p then if k = n then 1 else 0
  else if p ≤ 0 then if k = 0 then 1 else 0
  else pmfTerm n p k

/-- The upper tail, summed upward from `k`. -/
noncomputable def binomSf (n k : Nat) (p : ℝ) : ℝ :=
  if k = 0 then 1
  else if n < k ∨ p ≤ 0 then 0
  else if 1 ≤ p then 1
  else
    let ratio (s : Nat) : ℝ := ((n - (k + s) : Nat) / (k + s + 1 : Nat)) * (p / (1 - p))
    min (tailLoop ratio (fun s => ⌊n * p⌋₊ ≤ k + s) 0 (binomPmf n k p) 0 0 (n + 1 - k)) 1

/-- The lower tail, summed downward from `k`. -/
noncomputable def binomLowerTail (n k : Nat) (p : ℝ) : ℝ :=
  if n ≤ k ∨ p ≤ 0 then 1
  else if 1 ≤ p then 0
  else
    let ratio (s : Nat) : ℝ := ((k - s : Nat) / (n - (k - s) + 1 : Nat)) * ((1 - p) / p)
    min (tailLoop ratio (fun s => k - s ≤ ⌊n * p⌋₊) 0 (binomPmf n k p) 0 0 (k + 1)) 1

/-- The slack for shards at this capacity, split over both sides of the common mean. -/
noncomputable def shardCoordinationSlack (perShardCapacity shardCount securityBits : Nat) : Nat :=
  if shardCount ≤ 1 then 0
  else
    let m : ℝ := shardCount
    let p := 1 / m
    let totalN := perShardCapacity * shardCount
    let target := (2 : ℝ) ^ (-Int32.ofNat securityBits).toInt * p / 2
    let low := bisect (fun mid => binomSf totalN mid p ≤ target) perShardCapacity totalN
    let upperSlack := low - perShardCapacity
    let lowDeviation := bisect (fun mid => binomLowerTail totalN (perShardCapacity - mid) p ≤ target) 0 perShardCapacity
    upperSlack + lowDeviation

section Loop
variable {ratio : Nat → ℝ} {past : Nat → Prop} [DecidablePred past] {t : Nat → ℝ} {total : Nat}

variable (past) in
/-- The loop adds up a sequence with these ratios and stops at its end or past the mode at a term that is small
next to the sum. -/
theorem tailLoop_spec (pos : ∀ s < total, 0 < t s) (next : ∀ s, s + 1 < total → t (s + 1) = t s * ratio s)
    {s remaining : Nat} (rest : s + remaining = total) (some : 0 < remaining) :
    ∃ stop, tailLoop ratio past s (t s) (∑ j ∈ range s, t j) 0 remaining = ∑ j ∈ range stop, t j ∧ stop ≤ total ∧
      (stop = total ∨ 0 < stop ∧ stop < total ∧ t stop < (∑ j ∈ range stop, t j) * (1 / 2 ^ 52) ∧ past (stop - 1)) := by
  induction remaining generalizing s with
  | zero => exact absurd some (Nat.lt_irrefl 0)
  | succ remaining ih =>
    have sum : ∑ j ∈ range s, t j + (t s - 0) = ∑ j ∈ range (s + 1), t j := by rw [sub_zero, sum_range_succ]
    have exact_ : ∑ j ∈ range (s + 1), t j - ∑ j ∈ range s, t j - (t s - 0) = 0 := by
      rw [← sum, add_sub_cancel_left, sub_self]
    rw [tailLoop]
    simp only [sum, exact_]
    by_cases last : remaining = 0
    · rw [if_pos last]
      exact ⟨s + 1, rfl, by omega, .inl (by omega)⟩
    rw [if_neg last, ← next s (by omega)]
    split
    · rename_i early
      have later : s + 1 < total := by omega
      refine ⟨s + 1, rfl, later.le, .inr ⟨Nat.succ_pos s, later, ?_⟩⟩
      exact early.resolve_left (pos (s + 1) later).ne'
    · exact ih (by omega) (by omega)

/-- What an early stop leaves out. -/
theorem sum_le_tailLoop (pos : ∀ s < total, 0 < t s) (next : ∀ s, s + 1 < total → t (s + 1) = t s * ratio s)
    (falls : ∀ s, past s → ∀ j, s < j → j + 1 < total → t (j + 1) ≤ t j) (some : 0 < total) :
    tailLoop ratio past 0 (t 0) 0 0 total ≤ ∑ j ∈ range total, t j ∧
      ∑ j ∈ range total, t j ≤ (1 + total * (1 / 2 ^ 52)) * tailLoop ratio past 0 (t 0) 0 0 total := by
  obtain ⟨stop, equal, inside, ended⟩ := tailLoop_spec past pos next (Nat.zero_add total) some
  rw [range_zero, sum_empty] at equal
  rw [equal]
  have partial_nonneg : 0 ≤ ∑ j ∈ range stop, t j :=
    sum_nonneg fun j hj => (pos j ((mem_range.mp hj).trans_le inside)).le
  constructor
  · exact sum_le_sum_of_subset_of_nonneg (range_subset_range.mpr inside) fun j hj _ => (pos j (mem_range.mp hj)).le
  rcases ended with rfl | ⟨began, before, small, mode⟩
  · exact le_mul_of_one_le_left partial_nonneg (le_add_of_nonneg_right (by positivity))
  · have below : ∀ j, stop ≤ j → j < total → t j ≤ t stop := by
      intro j from_stop
      induction j, from_stop using Nat.le_induction with
      | base => exact fun _ => le_refl _
      | succ j from_stop ih =>
        intro to_total
        exact (falls (stop - 1) mode j (by omega) to_total).trans (ih (by omega))
    have left : ∑ j ∈ Ico stop total, t j ≤ total * ((∑ j ∈ range stop, t j) * (1 / 2 ^ 52)) := by
      have each : ∀ j ∈ Ico stop total, t j ≤ (∑ j ∈ range stop, t j) * (1 / 2 ^ 52) := fun j hj =>
        (below j (mem_Ico.mp hj).1 (mem_Ico.mp hj).2).trans small.le
      refine (sum_le_card_nsmul _ _ _ each).trans ?_
      rw [nsmul_eq_mul, Nat.card_Ico]
      refine mul_le_mul_of_nonneg_right (Nat.cast_le.mpr (Nat.sub_le _ _)) (by positivity)
    rw [← sum_range_add_sum_Ico _ inside]
    linarith

end Loop
section Terms
variable {n k i : Nat} {p : ℝ}

theorem term_pos (low : 0 < p) (high : p < 1) (inside : i ≤ n) : 0 < term n p i :=
  mul_pos (mul_pos (Nat.cast_pos.mpr (Nat.choose_pos inside)) (pow_pos low _)) (pow_pos (sub_pos.mpr high) _)

/-- From one term to the next. -/
theorem term_ratio (high : p < 1) (inside : i < n) :
    term n p (i + 1) = term n p i * (((n - i : Nat) / (i + 1 : Nat)) * (p / (1 - p))) := by
  have miss : 1 - p ≠ 0 := (sub_pos.mpr high).ne'
  have count : ((i + 1 : Nat) : ℝ) ≠ 0 := Nat.cast_ne_zero.mpr (Nat.succ_ne_zero i)
  have choose : (n.choose (i + 1) : ℝ) * (i + 1 : Nat) = n.choose i * (n - i : Nat) := by
    exact_mod_cast Nat.choose_succ_right_eq n i
  obtain ⟨rest, hrest⟩ : ∃ rest, n - i = rest + 1 := ⟨n - i - 1, by omega⟩
  have last : n - (i + 1) = rest := by omega
  rw [term, term, last]
  rw [hrest] at choose ⊢
  rw [pow_succ p, pow_succ (1 - p), eq_comm]
  calc (n.choose i : ℝ) * p ^ i * ((1 - p) ^ rest * (1 - p)) * (((rest + 1 : Nat) : ℝ) / (i + 1 : Nat) * (p / (1 - p)))
      = (n.choose i * (rest + 1 : Nat)) / (i + 1 : Nat) * (p ^ i * p) * (1 - p) ^ rest := by field_simp
    _ = n.choose (i + 1) * (p ^ i * p) * (1 - p) ^ rest := by rw [← choose, mul_div_cancel_right₀ _ count]

theorem term_ratio_down (low : 0 < p) (high : p < 1) (inside : i < n) :
    term n p i = term n p (i + 1) * (((i + 1 : Nat) / (n - (i + 1) + 1 : Nat)) * ((1 - p) / p)) := by
  have miss : 1 - p ≠ 0 := (sub_pos.mpr high).ne'
  have hit : p ≠ 0 := low.ne'
  have count : ((i + 1 : Nat) : ℝ) ≠ 0 := Nat.cast_ne_zero.mpr (Nat.succ_ne_zero i)
  have same : n - (i + 1) + 1 = n - i := by omega
  have rest : ((n - i : Nat) : ℝ) ≠ 0 := Nat.cast_ne_zero.mpr (by omega)
  rw [term_ratio high inside, same]
  field_simp

/-- Past the mean the terms fall. -/
theorem term_succ_le (low : 0 < p) (high : p < 1) (inside : i < n) (past : n * p ≤ i) : term n p (i + 1) ≤ term n p i := by
  rw [term_ratio high inside]
  apply mul_le_of_le_one_right (term_pos low high inside.le).le
  have miss : 0 < 1 - p := sub_pos.mpr high
  rw [div_mul_div_comm, div_le_one (mul_pos (Nat.cast_pos.mpr (Nat.succ_pos i)) miss), Nat.cast_sub inside.le]
  push_cast
  nlinarith

/-- Up to the mean they rise. -/
theorem term_le_succ (low : 0 < p) (high : p < 1) (inside : i < n) (before : (i + 1 : Nat) ≤ n * p) :
    term n p i ≤ term n p (i + 1) := by
  rw [term_ratio_down low high inside]
  apply mul_le_of_le_one_right (term_pos low high inside).le
  have same : n - (i + 1) + 1 = n - i := by omega
  have some : (0 : ℝ) < (n - i : Nat) := Nat.cast_pos.mpr (by omega)
  rw [same, div_mul_div_comm, div_le_one (mul_pos some low), Nat.cast_sub inside.le]
  push_cast at before ⊢
  nlinarith

/-- The error of one term: its three values of the series are each off by this much. -/
noncomputable def pmfError : ℝ := Real.exp (3 * (1 / 2 ^ 24))

theorem one_le_pmfError : 1 ≤ pmfError := Real.one_le_exp (by norm_num)

/-- The term that the sums start from. -/
theorem pmf_factor (low : 0 < p) (high : p < 1) (inside : k ≤ n) : ∃ factor, 0 < factor ∧
    binomPmf n k p = factor * term n p k ∧ factor ≤ pmfError ∧ 1 ≤ pmfError * factor := by
  have pos := term_pos low high inside
  obtain ⟨lower, upper⟩ := pmfTerm_bounds low high inside
  refine ⟨pmfTerm n p k / term n p k, div_pos (pmfTerm_pos n p k) pos, ?_, ?_, ?_⟩
  · rw [binomPmf, if_neg (Nat.not_lt.mpr inside), if_neg (not_le.mpr high), if_neg (not_le.mpr low), div_mul_cancel₀ _ pos.ne']
  · rw [div_le_iff₀ pos, mul_comm]
    exact upper
  · rw [← mul_div_assoc, le_div_iff₀ pos, one_mul]
    calc term n p k = pmfError * (term n p k * Real.exp (-(3 * (1 / 2 ^ 24)))) := by
          rw [pmfError, mul_left_comm, ← Real.exp_add, add_neg_cancel, Real.exp_zero, mul_one]
      _ ≤ pmfError * pmfTerm n p k := mul_le_mul_of_nonneg_left lower (Real.exp_nonneg _)

end Terms

section Tails
variable {n k : Nat} {p : ℝ}

/-- A sum within these bounds, once it is cut off at 1. -/
theorem min_one_bounds {x y factor c a : ℝ} (below : x ≤ factor * y) (above : factor * y ≤ c * x) (whole : y ≤ 1)
    (pos : 0 ≤ y) (most : factor ≤ a) (least : 1 ≤ a * factor) (some : 0 ≤ a) (slack : 1 ≤ c) :
    min x 1 ≤ a * y ∧ y ≤ a * c * min x 1 := by
  constructor
  · exact (min_le_left _ _).trans (below.trans (mul_le_mul_of_nonneg_right most pos))
  · rcases le_total x 1 with small | large
    · rw [min_eq_left small, mul_assoc]
      calc y ≤ a * factor * y := le_mul_of_one_le_left pos least
        _ = a * (factor * y) := mul_assoc _ _ _
        _ ≤ a * (c * x) := mul_le_mul_of_nonneg_left above some
    · rw [min_eq_right large, mul_one]
      have one : 1 ≤ a := by nlinarith
      exact whole.trans (one_le_mul_of_one_le_of_one_le one slack)

/-- The error of the tails: of a term, and of the early stop. -/
noncomputable def tailError (n : Nat) : ℝ := pmfError * (1 + n * (1 / 2 ^ 52))

theorem upperTail_le_one (low : 0 ≤ p) (high : p ≤ 1) (n k : Nat) : upperTail n p k ≤ 1 := by
  rw [Trials.upperTail_eq]
  exact sub_le_self 1 (sum_nonneg fun i _ => term_nonneg n low high i)

theorem one_le_tailError (n : Nat) : 1 ≤ tailError n :=
  one_le_mul_of_one_le_of_one_le one_le_pmfError (le_add_of_nonneg_right (by positivity))

/-- A loop over terms that are all off by one factor. -/
theorem tailLoop_bounds {ratio : Nat → ℝ} {past : Nat → Prop} [DecidablePred past] {term : Nat → ℝ} {total : Nat}
    {y start : ℝ} (low : 0 < p) (high : p < 1) (inside : k ≤ n)
    (pos : ∀ s < total, 0 < term s) (next : ∀ s, s + 1 < total → term (s + 1) = term s * ratio s)
    (falls : ∀ s, past s → ∀ j, s < j → j + 1 < total → term (j + 1) ≤ term j) (some : 0 < total) (few : total ≤ n)
    (sum : ∑ s ∈ range total, term s = y) (whole : y ≤ 1) (first : term 0 = Binomial.term n p k)
    (starts : start = binomPmf n k p) :
    min (tailLoop ratio past 0 start 0 0 total) 1 ≤ pmfError * y ∧
      y ≤ tailError n * min (tailLoop ratio past 0 start 0 0 total) 1 := by
  obtain ⟨factor, positive, equal, most, least⟩ := pmf_factor low high inside
  obtain ⟨below, above⟩ := @sum_le_tailLoop ratio past _ (fun s => factor * term s) total
    (fun s hs => mul_pos positive (pos s hs)) (fun s hs => by rw [next s hs, mul_assoc])
    (fun s mode j hj more => mul_le_mul_of_nonneg_left (falls s mode j hj more) positive.le) some
  rw [← mul_sum, sum, first, ← equal, ← starts] at below above
  have nonneg : 0 ≤ y := by
    rw [← sum]
    exact sum_nonneg fun s hs => (pos s (mem_range.mp hs)).le
  have result : 0 ≤ tailLoop ratio past 0 start 0 0 total := by
    by_contra negative
    have := mul_nonneg positive.le nonneg
    have : (1 + (total : ℝ) * (1 / 2 ^ 52)) * tailLoop ratio past 0 start 0 0 total ≤ 0 :=
      mul_nonpos_of_nonneg_of_nonpos (by positivity) (not_le.mp negative).le
    nlinarith
  have slack : (1 : ℝ) + total * (1 / 2 ^ 52) ≤ 1 + n * (1 / 2 ^ 52) := by
    have : (total : ℝ) ≤ n := Nat.cast_le.mpr few
    linarith
  exact min_one_bounds below (above.trans (mul_le_mul_of_nonneg_right slack result)) whole nonneg most least
    (Real.exp_nonneg _) (le_add_of_nonneg_right (by positivity))

theorem upperTail_certain (inside : k ≤ n) : upperTail n (1 : ℝ) k = 1 := by
  rw [Trials.upperTail_eq, sum_eq_zero, sub_zero]
  intro i hi
  have miss : n - i ≠ 0 := (Nat.sub_pos_of_lt ((mem_range.mp hi).trans_le inside)).ne'
  rw [term, sub_self, zero_pow miss, mul_zero]

theorem binomSf_bounds (low : 0 < p) (high : p ≤ 1) (n k : Nat) :
    binomSf n k p ≤ pmfError * upperTail n p k ∧ upperTail n p k ≤ tailError n * binomSf n k p := by
  by_cases zero : k = 0
  · have whole : upperTail n p k = 1 := by rw [zero, Trials.upperTail_eq, range_zero, sum_empty, sub_zero]
    rw [binomSf, if_pos zero, whole, mul_one, mul_one]
    exact ⟨one_le_pmfError, one_le_tailError n⟩
  by_cases beyond : n < k
  · have none : upperTail n p k = 0 := by rw [upperTail, Icc_eq_empty_of_lt beyond, sum_empty]
    rw [binomSf, if_neg zero, if_pos (.inl beyond), none, mul_zero, mul_zero]
    exact ⟨le_refl _, le_refl _⟩
  have inside : k ≤ n := Nat.le_of_not_lt beyond
  have none : ¬ (n < k ∨ p ≤ 0) := fun h => h.elim beyond (not_le.mpr low)
  have sum : ∑ s ∈ range (n + 1 - k), term n p (k + s) = upperTail n p k := by
    rw [upperTail, ← sum_Ico_eq_sum_range]
    rfl
  rw [binomSf, if_neg zero, if_neg none]
  rcases high.eq_or_lt with rfl | high
  · rw [if_pos (le_refl 1), upperTail_certain inside, mul_one, mul_one]
    exact ⟨one_le_pmfError, one_le_tailError n⟩
  rw [if_neg (not_le.mpr high)]
  refine tailLoop_bounds low high inside (fun s hs => term_pos low high (by omega)) (fun s hs => ?_)
    (fun s mode j hj more => ?_) (by omega) (by omega) sum (upperTail_le_one low.le high.le n k) rfl rfl
  · exact @term_ratio n (k + s) p high (by omega)
  · refine @term_succ_le n (k + j) p low high (by omega) ?_
    have floor := Nat.lt_floor_add_one (n * p)
    have further : ((⌊n * p⌋₊ + 1 : Nat) : ℝ) ≤ (k + j : Nat) := Nat.cast_le.mpr (by omega)
    push_cast at further ⊢
    linarith

theorem binomLowerTail_bounds (low : 0 < p) (high : p < 1)
    (k : Nat) :
    binomLowerTail n k p ≤ pmfError * cdf n p (min k n) ∧ cdf n p (min k n) ≤ tailError n * binomLowerTail n k p := by
  by_cases beyond : n ≤ k
  · rw [binomLowerTail, if_pos (.inl beyond), min_eq_right beyond, cdf_full, mul_one, mul_one]
    exact ⟨one_le_pmfError, one_le_tailError n⟩
  have inside : k < n := Nat.lt_of_not_le beyond
  have none : ¬ (n ≤ k ∨ p ≤ 0) := fun h => h.elim beyond (not_le.mpr low)
  have sum : ∑ s ∈ range (k + 1), term n p (k - s) = cdf n p k := by
    rw [cdf, ← sum_range_reflect]
    refine sum_congr rfl fun s hs => ?_
    have inside : s ≤ k := Nat.lt_succ_iff.mp (mem_range.mp hs)
    rw [Nat.add_sub_cancel, Nat.sub_sub_self inside]
  have whole : cdf n p k ≤ 1 := (cdf_mono n low.le high.le inside.le).trans_eq (cdf_full n p)
  rw [binomLowerTail, if_neg none, if_neg (not_le.mpr high), min_eq_left inside.le]
  refine tailLoop_bounds low high inside.le (fun s hs => term_pos low high (by omega)) (fun s hs => ?_)
    (fun s mode j hj more => ?_) (Nat.succ_pos k) inside sum whole rfl rfl
  · have step : k - s = k - (s + 1) + 1 := by omega
    rw [step]
    exact term_ratio_down low high (by omega)
  · have step : k - j = k - (j + 1) + 1 := by omega
    rw [step]
    refine term_le_succ low high (by omega) ?_
    have floor := Nat.floor_le (show 0 ≤ n * p by positivity)
    have further : ((k - (j + 1) + 1 : Nat) : ℝ) ≤ (⌊n * p⌋₊ : Nat) := Nat.cast_le.mpr (by omega)
    exact further.trans floor

/-- Both tails are within these factors of the exact sums. -/
theorem binom_tails_accurate (low : 0 < p) (high : p < 1) (n k : Nat) :
    (binomSf n k p ≤ pmfError * upperTail n p k ∧ upperTail n p k ≤ tailError n * binomSf n k p) ∧
      (binomLowerTail n k p ≤ pmfError * cdf n p (min k n) ∧ cdf n p (min k n) ≤ tailError n * binomLowerTail n k p) :=
  ⟨binomSf_bounds low high.le n k, binomLowerTail_bounds low high k⟩

theorem binom_tails_accurate_sixteenth :
    upperTail 1024 (1 / 16 : ℝ) 150 ≤ tailError 1024 * binomSf 1024 150 (1 / 16) :=
  (binom_tails_accurate (by norm_num) (by norm_num) 1024 150).1.2

/-- The slack is a deviation above the mean and one below it, and each of them is seldom exceeded. -/
theorem shardCoordinationSlack_spec {m : Nat} (many : 2 ≤ m) (c : Nat) {bits : Nat} (fits : bits ≤ 2 ^ 31) : ∃ upper lower,
    shardCoordinationSlack c m bits = upper + lower ∧
      m * upperTail (c * m) (1 / (m : ℝ)) (c + upper + 1) ≤ tailError (c * m) * (2 : ℝ) ^ (-(bits : ℤ)) / 2 ∧
      m * ∑ j ∈ range (c - lower), term (c * m) (1 / (m : ℝ)) j ≤ tailError (c * m) * (2 : ℝ) ^ (-(bits : ℤ)) / 2 := by
  have some : (0 : ℝ) < m := Nat.cast_pos.mpr (by omega)
  have low : 0 < 1 / (m : ℝ) := div_pos one_pos some
  have high : 1 / (m : ℝ) < 1 := (div_lt_one some).mpr (by exact_mod_cast many)
  have error : 0 ≤ tailError (c * m) := zero_le_one.trans (one_le_tailError _)
  have bound : 0 ≤ tailError (c * m) * (2 : ℝ) ^ (-(bits : ℤ)) / 2 := by positivity
  -- a tail that meets the target, over all shards
  have share : ∀ tail estimate : ℝ, tail ≤ tailError (c * m) * estimate →
      estimate ≤ (2 : ℝ) ^ (-(bits : ℤ)) * (1 / m) / 2 → m * tail ≤ tailError (c * m) * (2 : ℝ) ^ (-(bits : ℤ)) / 2 := by
    intro tail estimate near meets
    calc m * tail ≤ m * (tailError (c * m) * ((2 : ℝ) ^ (-(bits : ℤ)) * (1 / m) / 2)) :=
          mul_le_mul_of_nonneg_left (near.trans (mul_le_mul_of_nonneg_left meets error)) some.le
      _ = tailError (c * m) * (2 : ℝ) ^ (-(bits : ℤ)) / 2 := by field_simp
  have within : c ≤ c * m := Nat.le_mul_of_pos_right c (by omega)
  obtain ⟨above, -, stop⟩ := bisect_stops
    (fun mid => binomSf (c * m) mid (1 / m) ≤ (2 : ℝ) ^ (-(bits : ℤ)) * (1 / m) / 2) within
  obtain ⟨-, -, stop'⟩ := bisect_stops
    (fun mid => binomLowerTail (c * m) (c - mid) (1 / m) ≤ (2 : ℝ) ^ (-(bits : ℤ)) * (1 / m) / 2) (Nat.zero_le c)
  have split : shardCoordinationSlack c m bits = (bisect (fun mid => binomSf (c * m) mid (1 / m) ≤
      (2 : ℝ) ^ (-(bits : ℤ)) * (1 / m) / 2) c (c * m) - c) + bisect (fun mid => binomLowerTail (c * m) (c - mid) (1 / m) ≤
      (2 : ℝ) ^ (-(bits : ℤ)) * (1 / m) / 2) 0 c := by
    simp only [shardCoordinationSlack, if_neg (Nat.not_le_of_lt many), Ct.toInt_neg_ofNat fits]
  refine ⟨_, _, split, ?_, ?_⟩
  · rw [Nat.add_sub_cancel' above]
    obtain last | meets := stop
    · rw [last, upperTail, Icc_eq_empty_of_lt (Nat.lt_succ_self _), sum_empty, mul_zero]
      exact bound
    · refine share _ _ ?_ meets
      exact (upperTail_antitone (c * m) low.le high.le (Nat.le_succ _)).trans (binomSf_bounds low high.le _ _).2
  · obtain last | meets := stop'
    · rw [last, Nat.sub_self, range_zero, sum_empty, mul_zero]
      exact bound
    · refine share _ _ ?_ meets
      have near := (@binomLowerTail_bounds (c * m) (1 / (m : ℝ)) low high
        (c - bisect (fun mid => binomLowerTail (c * m) (c - mid) (1 / m) ≤ (2 : ℝ) ^ (-(bits : ℤ)) * (1 / m) / 2) 0 c)).2
      rw [min_eq_left ((Nat.sub_le _ _).trans within), cdf, sum_range_succ] at near
      exact (le_add_of_nonneg_right (term_nonneg _ low.le high.le _)).trans near

theorem pmfError_le_two : pmfError ≤ 2 := by
  have small : Real.exp (3 * (1 / 2 ^ 24)) ≤ 1 / (1 - 3 * (1 / 2 ^ 24)) :=
    Real.exp_bound_div_one_sub_of_interval (by norm_num) (by norm_num)
  exact small.trans (by norm_num)

/-- The computed tails of a fair coin fall off at least like powers of 3. -/
theorem binomSf_half_le (n k : Nat) : binomSf n k (1 / 2) * 3 ^ k ≤ 2 * 2 ^ n := by
  have near := (binomSf_bounds (p := 1 / 2) (by norm_num) (by norm_num) n k).1
  have tail := upperTail_mul_pow_le n k (p := (1 / 2 : ℝ)) (by norm_num) (by norm_num) (x := 3) (by norm_num)
  have mean : (1 / 2 * 3 + (1 - 1 / 2) : ℝ) = 2 := by norm_num
  rw [mean] at tail
  calc binomSf n k (1 / 2) * 3 ^ k ≤ pmfError * upperTail n (1 / 2) k * 3 ^ k :=
        mul_le_mul_of_nonneg_right near (by positivity)
    _ = pmfError * (upperTail n (1 / 2) k * 3 ^ k) := mul_assoc _ _ _
    _ ≤ 2 * 2 ^ n := mul_le_mul pmfError_le_two tail (mul_nonneg ?_ (by positivity)) two_pos.le
  exact sum_nonneg fun i _ => term_nonneg n (by norm_num) (by norm_num) i

theorem binomLowerTail_half_le {n k : Nat} (inside : k ≤ n) : binomLowerTail n k (1 / 2) * 3 ^ n ≤ 2 * 2 ^ n * 3 ^ k := by
  have near := (@binomLowerTail_bounds n (1 / 2) (by norm_num) (by norm_num) k).1
  rw [min_eq_left inside] at near
  have tail := cdf_mul_pow_le inside (p := (1 / 2 : ℝ)) (by norm_num) (by norm_num) (x := 1 / 3) (by norm_num) (by norm_num)
  have mean : (1 / 2 * (1 / 3) + (1 - 1 / 2) : ℝ) = 2 / 3 := by norm_num
  rw [mean, div_pow, div_pow, one_pow, mul_one_div, div_le_div_iff₀ (by positivity) (by positivity)] at tail
  calc binomLowerTail n k (1 / 2) * 3 ^ n ≤ pmfError * cdf n (1 / 2) k * 3 ^ n :=
        mul_le_mul_of_nonneg_right near (by positivity)
    _ = pmfError * (cdf n (1 / 2) k * 3 ^ n) := mul_assoc _ _ _
    _ ≤ 2 * (2 ^ n * 3 ^ k) := mul_le_mul pmfError_le_two tail (mul_nonneg ?_ (by positivity)) two_pos.le
    _ = 2 * 2 ^ n * 3 ^ k := (mul_assoc _ _ _).symm
  exact sum_nonneg fun i _ => term_nonneg n (by norm_num) (by norm_num) i

end Tails
end Roga
