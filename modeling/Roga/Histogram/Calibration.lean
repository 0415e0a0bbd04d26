import Mathlib.Analysis.Complex.ExponentialBounds
import Mathlib.Analysis.SpecialFunctions.Log.Basic
import Roga.Histogram.Privacy
import Roga.Probability.Laplace

/-! The sampler for a configured epsilon, with the arithmetic of its constructor over the
reals. Rounding the ratio upward keeps the promised privacy, and the number of trials keeps
the capped draws close to the uncapped ones. -/
namespace Roga
open Real Literal

/-- The constructor of `CtDiscreteLaplace`. -/
noncomputable def CtDiscreteLaplace.new (eps : ℝ) : Except Panic CtDiscreteLaplace :=
  if 0 < eps then
    let targetQ := exp (-eps / 6)
    let scaledQ := targetQ * 2 ^ 48
    let failureCutoff := min (⌊scaledQ⌋₊ + 2) (2 ^ 64 - 1)
    if failureCutoff < 2 ^ 48 then
      let q : ℝ := failureCutoff / 2 ^ 48
      if -6 * log q ≤ eps then
        let targetLogProbability := -(128 + 1) * log 2
        let trials := ⌈targetLogProbability / log q⌉₊
        if 0 < trials then .ok { failureCutoff := .ofNat failureCutoff, trials }
        else .error (.assertion "sampler must perform at least one trial")
      else .error (.assertion "-6.0 * q.ln() <= eps")
    else .error (.assertion "epsilon is too small for the sampler's probability precision")
  else .error (.assertion "epsilon must be finite and positive")

/-- `truncation_bound` -/
noncomputable def CtDiscreteLaplace.truncationBound (sampler : CtDiscreteLaplace) : ℝ :=
  2 * sampler.ratio ^ sampler.trials

/-- `effective_epsilon` -/
noncomputable def CtDiscreteLaplace.effectiveEpsilon (sampler : CtDiscreteLaplace) : ℝ := -6 * log sampler.ratio

/-- The cutoff before the assertion on it. -/
noncomputable def cutoffFor (eps : ℝ) : Nat := ⌊exp (-eps / 6) * 2 ^ 48⌋₊ + 2

section Constructor
variable {eps : ℝ} {sampler : CtDiscreteLaplace}

theorem target_lt_cutoff (eps : ℝ) : exp (-eps / 6) * 2 ^ 48 < cutoffFor eps := by
  have next := Nat.lt_floor_add_one (exp (-eps / 6) * 2 ^ 48)
  rw [cutoffFor]
  push_cast
  linarith

/-- Rounded upward, the ratio is above the target. -/
theorem target_lt_ratio (eps : ℝ) : exp (-eps / 6) < cutoffFor eps / 2 ^ 48 :=
  (lt_div_iff₀ (by positivity)).mpr (target_lt_cutoff eps)

theorem neg_log_ratio_lt (eps : ℝ) : -6 * log (cutoffFor eps / 2 ^ 48) < eps := by
  have lower := log_lt_log (exp_pos _) (target_lt_ratio eps)
  rw [log_exp] at lower
  linarith

/-- The addition of two units does not saturate. -/
theorem cutoffFor_lt (pos : 0 < eps) : cutoffFor eps < 2 ^ 64 - 1 := by
  have below : exp (-eps / 6) < 1 := exp_lt_one_iff.mpr (by linarith)
  have floor : ⌊exp (-eps / 6) * 2 ^ 48⌋₊ < 2 ^ 48 := by
    rw [Nat.floor_lt (by positivity)]
    push_cast
    nlinarith
  rw [cutoffFor]
  omega

theorem ratio_mem {n : Nat} (low : n < 2 ^ 48) (pos : 0 < n) : (0 : ℝ) < n / 2 ^ 48 ∧ (n : ℝ) / 2 ^ 48 < 1 := by
  constructor
  · exact div_pos (Nat.cast_pos.mpr pos) (by positivity)
  · rw [div_lt_one (by positivity)]
    exact_mod_cast low

/-- The number of trials for a ratio. -/
noncomputable def trialsFor (q : ℝ) : Nat := ⌈-(128 + 1) * log 2 / log q⌉₊

theorem trialsFor_pos {q : ℝ} (pos : 0 < q) (below : q < 1) : 0 < trialsFor q := by
  rw [trialsFor, Nat.ceil_pos]
  exact div_pos_of_neg_of_neg (mul_neg_of_neg_of_pos (by norm_num) (log_pos one_lt_two)) (log_neg pos below)

/-- The constructor returns unless epsilon is not positive or its cutoff leaves the 48 bits;
its other two assertions hold by then. -/
theorem CtDiscreteLaplace.new_eq_ok : CtDiscreteLaplace.new eps = .ok sampler ↔
    (0 < eps ∧ cutoffFor eps < 2 ^ 48) ∧
      sampler = { failureCutoff := .ofNat (cutoffFor eps), trials := trialsFor (cutoffFor eps / 2 ^ 48) } := by
  rw [CtDiscreteLaplace.new]
  by_cases pos : 0 < eps
  · have unsaturated : min (⌊exp (-eps / 6) * 2 ^ 48⌋₊ + 2) (2 ^ 64 - 1) = cutoffFor eps :=
      Nat.min_eq_left (cutoffFor_lt pos).le
    simp only [if_pos pos, unsaturated]
    by_cases low : cutoffFor eps < 2 ^ 48
    · obtain ⟨above, below⟩ := ratio_mem low (Nat.succ_pos _)
      have trials := trialsFor_pos above below
      rw [if_pos low, if_pos (neg_log_ratio_lt eps).le]
      rw [trialsFor] at trials ⊢
      rw [if_pos trials]
      constructor
      · intro made
        exact ⟨⟨pos, low⟩, (Except.ok.inj made).symm⟩
      · rintro ⟨-, rfl⟩
        rfl
    · rw [if_neg low]
      exact iff_of_false nofun fun h => low h.1.2
  · rw [if_neg pos]
    exact iff_of_false nofun fun h => pos h.1.1

theorem ratio_of_new (made : CtDiscreteLaplace.new eps = .ok sampler) : sampler.ratio = cutoffFor eps / 2 ^ 48 := by
  obtain ⟨⟨-, low⟩, rfl⟩ := CtDiscreteLaplace.new_eq_ok.mp made
  have word : cutoffFor eps < UInt64.size := low.trans (by decide)
  rw [CtDiscreteLaplace.ratio, UInt64.toNat_ofNat_of_lt' word]

/-- The ratio is above the target by two units at most. -/
theorem ratio_le_of_new (made : CtDiscreteLaplace.new eps = .ok sampler) :
    sampler.ratio ≤ exp (-eps / 6) + 2 / 2 ^ 48 := by
  have floor := Nat.floor_le (show 0 ≤ exp (-eps / 6) * 2 ^ 48 by positivity)
  rw [ratio_of_new made, cutoffFor, div_le_iff₀ (by positivity)]
  push_cast
  linarith

theorem ratio_mem_of_new (made : CtDiscreteLaplace.new eps = .ok sampler) : 0 < sampler.ratio ∧ sampler.ratio < 1 := by
  rw [ratio_of_new made]
  exact ratio_mem (CtDiscreteLaplace.new_eq_ok.mp made).1.2 (Nat.succ_pos _)

theorem trials_of_new (made : CtDiscreteLaplace.new eps = .ok sampler) : sampler.trials = trialsFor sampler.ratio := by
  rw [ratio_of_new made, (CtDiscreteLaplace.new_eq_ok.mp made).2]

theorem cutoff_of_new (made : CtDiscreteLaplace.new eps = .ok sampler) :
    0 < sampler.failureCutoff.toNat ∧ sampler.failureCutoff.toNat < 2 ^ 48 := by
  obtain ⟨⟨-, low⟩, rfl⟩ := CtDiscreteLaplace.new_eq_ok.mp made
  have word : cutoffFor eps < UInt64.size := low.trans (by decide)
  rw [UInt64.toNat_ofNat_of_lt' word]
  exact ⟨Nat.succ_pos _, low⟩

/-- The number of trials is the least one that makes draws at the cap rare enough. -/
theorem trialsFor_le_iff {q : ℝ} (pos : 0 < q) (below : q < 1) (n : Nat) : trialsFor q ≤ n ↔ 2 * q ^ n ≤ 1 / 2 ^ 128 := by
  have slope : log q < 0 := log_neg pos below
  calc trialsFor q ≤ n ↔ -(128 + 1) * log 2 / log q ≤ n := Nat.ceil_le
    _ ↔ n * log q ≤ -(128 + 1) * log 2 := div_le_iff_of_neg slope
    _ ↔ log (q ^ n) ≤ log (1 / 2 ^ 129) := by
      rw [log_pow, one_div, log_inv, log_pow]
      norm_num
    _ ↔ q ^ n ≤ 1 / 2 ^ 129 := log_le_log_iff (pow_pos pos n) (by positivity)
    _ ↔ 2 * q ^ n ≤ 1 / 2 ^ 128 := by
      constructor
      · intro small
        linarith
      · intro small
        linarith

/-- The number of trials fits easily into a word. -/
theorem trials_lt (made : CtDiscreteLaplace.new eps = .ok sampler) : sampler.trials < 2 ^ 60 := by
  obtain ⟨pos, below⟩ := ratio_mem_of_new made
  have gap : 1 / 2 ^ 48 ≤ 1 - sampler.ratio := by
    have last : (sampler.failureCutoff.toNat : ℝ) + 1 ≤ 2 ^ 48 := by exact_mod_cast (cutoff_of_new made).2
    rw [CtDiscreteLaplace.ratio, le_sub_iff_add_le, ← add_div, div_le_one (by positivity)]
    linarith
  have slope : log sampler.ratio ≤ -(1 / 2 ^ 48) := by
    have := log_le_sub_one_of_pos pos
    linarith
  have least : trialsFor sampler.ratio ≤ 129 * 2 ^ 48 := by
    apply Nat.ceil_le.mpr
    rw [div_le_iff_of_neg (log_neg pos below)]
    have two := log_le_sub_one_of_pos two_pos
    push_cast
    linarith
  rw [trials_of_new made]
  omega

theorem trials_isLeast (made : CtDiscreteLaplace.new eps = .ok sampler) :
    IsLeast {n | 2 * sampler.ratio ^ n ≤ 1 / 2 ^ 128} sampler.trials := by
  obtain ⟨pos, below⟩ := ratio_mem_of_new made
  rw [trials_of_new made]
  exact ⟨(trialsFor_le_iff pos below _).mp (Nat.le_refl _), fun n small => (trialsFor_le_iff pos below n).mpr small⟩

/-- A configured sampler: its ratio is above the target by two units at most, so that it keeps the promised
epsilon, and it makes the least number of trials for which draws at the cap are rare. -/
theorem sampler_calibrated (made : CtDiscreteLaplace.new eps = .ok sampler) :
    (exp (-eps / 6) < sampler.ratio ∧ sampler.ratio ≤ exp (-eps / 6) + 2 / 2 ^ 48 ∧ sampler.ratio < 1) ∧
      sampler.effectiveEpsilon < eps ∧ sampler.truncationBound ≤ 1 / 2 ^ 128 ∧
      IsLeast {n | 2 * sampler.ratio ^ n ≤ 1 / 2 ^ 128} sampler.trials ∧ 0 < sampler.trials := by
  obtain ⟨pos, below⟩ := ratio_mem_of_new made
  have least := trials_isLeast made
  refine ⟨⟨?_, ratio_le_of_new made, below⟩, ?_, least.1, least, ?_⟩
  · rw [ratio_of_new made]
    exact target_lt_ratio eps
  · rw [CtDiscreteLaplace.effectiveEpsilon, ratio_of_new made]
    exact neg_log_ratio_lt eps
  · rw [trials_of_new made]
    exact trialsFor_pos pos below

theorem inv_ratio_lt (made : CtDiscreteLaplace.new eps = .ok sampler) : sampler.ratio⁻¹ < exp (eps / 6) := by
  rw [ratio_of_new made, inv_lt_comm₀ (ratio_of_new made ▸ (ratio_mem_of_new made).1) (exp_pos _), ← exp_neg, ← neg_div]
  exact target_lt_ratio eps

/-- Every epsilon from 1 on is large enough for the precision of the cutoff. -/
theorem new_of_one_le (large : 1 ≤ eps) : ∃ sampler, CtDiscreteLaplace.new eps = .ok sampler := by
  refine ⟨_, CtDiscreteLaplace.new_eq_ok.mpr ⟨⟨one_pos.trans_le large, ?_⟩, rfl⟩⟩
  have small : exp (-eps / 6) ≤ 6 / 7 := by
    have grows := add_one_le_exp (eps / 6)
    rw [neg_div, exp_neg, inv_le_comm₀ (exp_pos _) (by norm_num)]
    linarith
  have floor : ⌊exp (-eps / 6) * 2 ^ 48⌋₊ < 2 ^ 48 - 2 := by
    rw [Nat.floor_lt (by positivity)]
    push_cast
    linarith
  rw [cutoffFor]
  omega

theorem sampler_calibrated_one : ∃ sampler, CtDiscreteLaplace.new 1 = .ok sampler ∧ sampler.effectiveEpsilon < 1 ∧
    sampler.truncationBound ≤ 1 / 2 ^ 128 := by
  obtain ⟨sampler, made⟩ := new_of_one_le (le_refl 1)
  obtain ⟨-, private_, bound, -⟩ := sampler_calibrated made
  exact ⟨sampler, made, private_, bound⟩

/-- At epsilon 30 the ratio is about 1/148. -/
theorem ratio_thirty (made : CtDiscreteLaplace.new 30 = .ok sampler) :
    1 / 150 < sampler.ratio ∧ sampler.ratio < 1 / 140 := by
  have target : exp (-30 / 6) = (exp 1 ^ 5)⁻¹ := by
    rw [← exp_nat_mul, ← exp_neg]
    norm_num
  have high : exp 1 ^ 5 ≤ 2.7182818286 ^ 5 := pow_le_pow_left₀ (exp_pos 1).le exp_one_lt_d9.le 5
  have low : 2.7182818283 ^ 5 ≤ exp 1 ^ 5 := pow_le_pow_left₀ (by norm_num) exp_one_gt_d9.le 5
  have above := target_lt_ratio 30
  have below := ratio_le_of_new made
  rw [← ratio_of_new made, target] at above
  rw [target] at below
  constructor
  · refine lt_of_le_of_lt ?_ above
    rw [one_div]
    apply inv_anti₀ (by positivity)
    exact high.trans (by norm_num)
  · refine below.trans_lt ?_
    have inverse : (exp 1 ^ 5)⁻¹ ≤ (2.7182818283 ^ 5)⁻¹ := inv_anti₀ (by norm_num) low
    refine (add_le_add_left inverse _).trans_lt ?_
    norm_num

end Constructor

section Sample
variable {eps : ℝ} {sampler : CtDiscreteLaplace} {M : Nat}

theorem rate_of_new (made : CtDiscreteLaplace.new eps = .ok sampler) : Tape.rate sampler.goesOn = sampler.ratio :=
  rate_goesOn (cutoff_of_new made).2.le

theorem rate_lt_one (made : CtDiscreteLaplace.new eps = .ok sampler) : Tape.rate sampler.goesOn < 1 := by
  rw [rate_of_new made]
  exact (ratio_mem_of_new made).2

/-- Whatever the position, a sample of a configured sampler follows the discrete Laplace law of its ratio up to a
statistical distance of `2^-128`. -/
theorem sample_near_laplace (made : CtDiscreteLaplace.new eps = .ok sampler) (math : ResizeMath) (rng : AutoResizeRng)
    (room : rng.drawn + 2 * sampler.trials ≤ M) (O : Set Int) :
    |Tape.prob (fun tape : Fin M → UInt64 => (sampler.sample (math.withWords (Tape.stream tape)) rng).1.toInt ∈ O) -
      Laplace.law sampler.ratio O| ≤ 1 / 2 ^ 128 := by
  have fits : sampler.trials < 2 ^ 63 := by
    have := trials_lt made
    omega
  have draws : ∀ tape : Fin M → UInt64, (sampler.sample (math.withWords (Tape.stream tape)) rng).1.toInt =
      (Tape.run sampler.goesOn (Tape.stream tape) rng.drawn sampler.trials : Int) -
        Tape.run sampler.goesOn (Tape.stream tape) (rng.drawn + sampler.trials) sampler.trials :=
    fun tape => (sample_runs math _ fits rng).1
  have close := Laplace.difference_close (rate_lt_one made) (show rng.drawn + sampler.trials ≤ M by omega)
    (show rng.drawn + sampler.trials + sampler.trials ≤ M by omega) (.inl (Nat.le_refl _)) O
  rw [rate_of_new made] at close
  simp only [draws]
  exact close.trans (trials_isLeast made).1

theorem sample_near_laplace_one : ∃ sampler, CtDiscreteLaplace.new 1 = .ok sampler ∧
    |Tape.prob (fun tape : Fin (5 + 2 * sampler.trials) → UInt64 =>
      (sampler.sample (ResizeMath.constant.withWords (Tape.stream tape)) ⟨7, 5⟩).1.toInt ∈ ({0} : Set Int)) -
      Laplace.law sampler.ratio {0}| ≤ 1 / 2 ^ 128 := by
  obtain ⟨sampler, made⟩ := new_of_one_le (le_refl 1)
  exact ⟨sampler, made, sample_near_laplace made .constant ⟨7, 5⟩ (Nat.le_refl _) {0}⟩

end Sample

end Roga
