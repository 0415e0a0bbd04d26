import Mathlib.Analysis.SpecialFunctions.Sqrt
import Roga.Oblivious.LnGamma
import Roga.Probability.Binomial

/-! The lower quantile of `binomial_solver.rs`, with its arithmetic over the reals. The
scan starts three standard deviations below the mean and only moves up. -/
namespace Roga
open Binomial

/-- `(ln_comb + k_f * ln_p + (n_f - k_f) * ln_1_minus_p).exp()` of both loops. -/
noncomputable def pmfTerm (n : Nat) (p : ℝ) (k : Nat) : ℝ :=
  let lnComb := lnGamma (n + 1) - lnGamma (k + 1) - lnGamma (n - k + 1)
  Real.exp (lnComb + k * Real.log p + (n - k) * Real.log (1 - p))

noncomputable def binomCdf (n k : Nat) (p : ℝ) : ℝ :=
  let k := min k n
  if 1 ≤ p then if k = n then 1 else 0
  else if p ≤ 0 then 1
  else min ((List.range (k + 1)).map (pmfTerm n p)).sum 1

/-- `while k < n && cdf < alpha` -/
noncomputable def ppfLoop (n : Nat) (p alpha : ℝ) (k : Nat) (cdf : ℝ) : Nat :=
  if k < n ∧ cdf < alpha then ppfLoop n p alpha (k + 1) (cdf + pmfTerm n p (k + 1)) else k
termination_by n - k

/-- Three standard deviations below the mean; the cast truncates, and is 0 on negative numbers. -/
noncomputable def ppfStart (n : Nat) (p : ℝ) : Nat := min ⌊n * p - 3 * √(n * p * (1 - p))⌋₊ n

noncomputable def binomPpf (n : Nat) (p alpha : ℝ) : Nat :=
  if 1 ≤ p then n
  else if p ≤ 0 then 0
  else
    let start := ppfStart n p
    let cdf := binomCdf n start p
    ppfLoop n p alpha start cdf - 1

section Sums
variable (n : Nat) (p : ℝ)

/-- The sum of `binom_cdf` before it is cut off at 1. -/
noncomputable def pmfSum (k : Nat) : ℝ := ((List.range (k + 1)).map (pmfTerm n p)).sum

theorem pmfTerm_pos (k : Nat) : 0 < pmfTerm n p k := Real.exp_pos _

theorem pmfSum_succ (k : Nat) : pmfSum n p (k + 1) = pmfSum n p k + pmfTerm n p (k + 1) := by
  rw [pmfSum, List.range_succ, List.map_append, List.sum_append, List.map_singleton, List.sum_singleton, pmfSum]

theorem pmfSum_mono : Monotone (pmfSum n p) := by
  apply monotone_nat_of_le_succ
  intro k
  rw [pmfSum_succ]
  exact le_add_of_nonneg_right (pmfTerm_pos n p _).le

variable {n p}

theorem binomCdf_eq (low : 0 < p) (high : p < 1) {k : Nat} (inside : k ≤ n) : binomCdf n k p = min (pmfSum n p k) 1 := by
  rw [binomCdf]
  simp only [Nat.min_eq_left inside, if_neg (not_le.mpr high), if_neg (not_le.mpr low), pmfSum]

/-- The cut-off is above every level that the scan looks for. -/
theorem binomCdf_lt_iff (low : 0 < p) (high : p < 1) {k : Nat} (inside : k ≤ n) {alpha : ℝ} (level : alpha ≤ 1) :
    binomCdf n k p < alpha ↔ pmfSum n p k < alpha := by
  rw [binomCdf_eq low high inside, min_lt_iff]
  exact or_iff_left (not_lt.mpr level)

end Sums

section Series
variable {n : Nat} {p : ℝ}

theorem log_term (low : 0 < p) (high : p < 1) {k : Nat} (inside : k ≤ n) :
    Real.log (term n p k) = Real.log n.factorial - Real.log k.factorial - Real.log (n - k).factorial +
      k * Real.log p + (n - k) * Real.log (1 - p) := by
  have fact : ∀ m : Nat, ((m.factorial : Nat) : ℝ) ≠ 0 := fun m => Nat.cast_ne_zero.mpr m.factorial_ne_zero
  have other : 1 - p ≠ 0 := (sub_pos.mpr high).ne'
  have choose : ((n.choose k : Nat) : ℝ) ≠ 0 := Nat.cast_ne_zero.mpr (Nat.choose_pos inside).ne'
  rw [term, Real.log_mul (mul_ne_zero choose (pow_ne_zero _ low.ne')) (pow_ne_zero _ other),
    Real.log_mul choose (pow_ne_zero _ low.ne'), Real.log_pow, Real.log_pow, Nat.cast_choose ℝ inside,
    Real.log_div (fact n) (mul_ne_zero (fact k) (fact (n - k))), Real.log_mul (fact k) (fact (n - k)),
    Nat.cast_sub inside]
  ring

/-- A term is off by no more than its three values of the series are. -/
theorem pmfTerm_bounds (low : 0 < p) (high : p < 1) {k : Nat} (inside : k ≤ n) :
    term n p k * Real.exp (-(3 * (1 / 2 ^ 24))) ≤ pmfTerm n p k ∧
      pmfTerm n p k ≤ term n p k * Real.exp (3 * (1 / 2 ^ 24)) := by
  have pos : 0 < term n p k :=
    mul_pos (mul_pos (Nat.cast_pos.mpr (Nat.choose_pos inside)) (pow_pos low _)) (pow_pos (sub_pos.mpr high) _)
  have whole := abs_le.mp (lnGamma_near n)
  have taken := abs_le.mp (lnGamma_near k)
  have left := abs_le.mp (lnGamma_near (n - k))
  have log := log_term low high inside
  rw [Nat.cast_sub inside] at left
  rw [pmfTerm, ← Real.exp_log pos, ← Real.exp_add, ← Real.exp_add, Real.exp_le_exp, Real.exp_le_exp, log]
  constructor <;> linarith

/-- Away from `alpha` by that factor the truncated series changes no comparison. -/
theorem binomCdf_agrees (low : 0 < p) (high : p < 1) {r : Nat} (inside : r ≤ n) {alpha : ℝ} (level : alpha ≤ 1)
    (apart : cdf n p r * Real.exp (3 * (1 / 2 ^ 24)) < alpha ∨ alpha ≤ cdf n p r * Real.exp (-(3 * (1 / 2 ^ 24)))) :
    binomCdf n r p < alpha ↔ cdf n p r < alpha := by
  have each : ∀ i ∈ Finset.range (r + 1), i ≤ n := fun i hi => (Nat.lt_succ_iff.mp (Finset.mem_range.mp hi)).trans inside
  have below : cdf n p r * Real.exp (-(3 * (1 / 2 ^ 24))) ≤ pmfSum n p r := by
    rw [cdf, Finset.sum_mul]
    exact Finset.sum_le_sum fun i hi => (pmfTerm_bounds low high (each i hi)).1
  have above : pmfSum n p r ≤ cdf n p r * Real.exp (3 * (1 / 2 ^ 24)) := by
    rw [cdf, Finset.sum_mul]
    exact Finset.sum_le_sum fun i hi => (pmfTerm_bounds low high (each i hi)).2
  have pos : 0 ≤ cdf n p r := Finset.sum_nonneg fun i _ => term_nonneg n low.le high.le i
  rw [binomCdf_lt_iff low high inside level]
  obtain less | least := apart
  · exact iff_of_true (above.trans_lt less)
      ((le_mul_of_one_le_right pos (Real.one_le_exp (by norm_num))).trans_lt less)
  · exact iff_of_false (not_lt.mpr (least.trans below))
      (not_lt.mpr (least.trans (mul_le_of_le_one_right pos (Real.exp_le_one_iff.mpr (by norm_num)))))

end Series

section Scan
variable {n : Nat} {p alpha : ℝ}

/-- The scan stops at the first sum from its start on that reaches `alpha`, or at `n`. -/
theorem ppfLoop_spec {k : Nat} {cdf : ℝ} (inside : k ≤ n) (sum : cdf < alpha → cdf = pmfSum n p k)
    (below : pmfSum n p k < alpha → cdf < alpha) :
    k ≤ ppfLoop n p alpha k cdf ∧ ppfLoop n p alpha k cdf ≤ n ∧
      ∀ j, k ≤ j → j < n → (pmfSum n p j < alpha ↔ j < ppfLoop n p alpha k cdf) := by
  fun_induction ppfLoop n p alpha k cdf with
  | case1 k cdf more ih =>
    have next : cdf + pmfTerm n p (k + 1) = pmfSum n p (k + 1) := by
      rw [pmfSum_succ, sum more.2]
    obtain ⟨above, last, scanned⟩ := ih more.1 (fun _ => next) fun small => next ▸ small
    refine ⟨by omega, last, ?_⟩
    intro j from_k to_n
    obtain rfl | later := Nat.eq_or_lt_of_le from_k
    · exact iff_of_true (sum more.2 ▸ more.2) above
    · exact scanned j later to_n
  | case2 k cdf stop =>
    refine ⟨Nat.le_refl _, inside, ?_⟩
    intro j from_k to_n
    have reached : ¬ pmfSum n p k < alpha := fun small => stop ⟨by omega, below small⟩
    exact iff_of_false (fun small => reached ((pmfSum_mono n p from_k).trans_lt small)) (Nat.not_lt.mpr from_k)

theorem binomPpf_eq (low : 0 < p) (high : p < 1) (level : alpha ≤ 1) :
    ∃ stop, binomPpf n p alpha = stop - 1 ∧ ppfStart n p ≤ stop ∧ stop ≤ n ∧
      ∀ j, ppfStart n p ≤ j → j < n → (binomCdf n j p < alpha ↔ j < stop) := by
  have inside : ppfStart n p ≤ n := min_le_right _ _
  have start := binomCdf_lt_iff low high inside level
  obtain ⟨above, last, scanned⟩ := ppfLoop_spec inside
    (fun small : binomCdf n (ppfStart n p) p < alpha => by
      rw [binomCdf_eq low high inside]
      exact min_eq_left ((start.mp small).le.trans level))
    start.mpr
  refine ⟨ppfLoop n p alpha (ppfStart n p) (binomCdf n (ppfStart n p) p), ?_, above, last, ?_⟩
  · rw [binomPpf, if_neg (not_le.mpr high), if_neg (not_le.mpr low)]
  · intro j from_start to_n
    rw [binomCdf_lt_iff low high to_n.le level]
    exact scanned j from_start to_n

/-- The result is below no point that the scan has started from. -/
theorem start_le_binomPpf (low : 0 < p) (high : p < 1) (level : alpha ≤ 1) :
    ppfStart n p - 1 ≤ binomPpf n p alpha := by
  obtain ⟨stop, same, above, -, -⟩ := binomPpf_eq (n := n) low high level
  rw [same]
  exact Nat.sub_le_sub_right above 1

/-- The true distribution function crosses every level up to 1. -/
theorem cdf_crossing (low : 0 < p) (high : p < 1) (level : alpha ≤ 1) :
    ∃ c ≤ n, ∀ r, cdf n p r < alpha ↔ r < c :=
  exists_crossing (cdf_mono n low.le high.le) (level.trans_eq (cdf_full n p).symm)

/-- A start past the quantile is never corrected, since the scan does not move down. -/
theorem not_isQuantile_of_start (low : 0 < p) (high : p < 1) (level : alpha ≤ 1) (far : 2 ≤ ppfStart n p)
    (past : alpha ≤ cdf n p (ppfStart n p - 1)) : ¬ IsQuantile (cdf n p) alpha (binomPpf n p alpha) := by
  obtain ⟨c, -, cross⟩ := cdf_crossing (n := n) low high level
  have crossed : ¬ ppfStart n p - 1 < c := fun before => not_lt.mpr past ((cross _).mpr before)
  have above := start_le_binomPpf (n := n) low high level
  rw [isQuantile_iff cross]
  omega

end Scan

/-- The result is the lower quantile exactly when the scan starts no later than one past it
and the truncated series puts no point from there on at the other side of `alpha`. -/
theorem binom_ppf_is_quantile_iff {n : Nat} {p alpha : ℝ} (low : 0 < p) (high : p < 1) (level : alpha ≤ 1) :
    IsQuantile (cdf n p) alpha (binomPpf n p alpha) ↔
      (ppfStart n p ≤ 1 ∨ cdf n p (ppfStart n p - 1) < alpha) ∧
      ∀ r, max 1 (ppfStart n p) ≤ r → r < n → (binomCdf n r p < alpha ↔ cdf n p r < alpha) := by
  obtain ⟨c, inside, cross⟩ := cdf_crossing (n := n) low high level
  obtain ⟨stop, same, above, last, scanned⟩ := binomPpf_eq (n := n) low high level
  rw [isQuantile_iff cross, same, cross]
  constructor
  · intro equal
    refine ⟨by omega, ?_⟩
    intro r from_start to_n
    rw [scanned r (by omega) to_n, cross]
    omega
  · rintro ⟨start, agree⟩
    have sides : ∀ r, max 1 (ppfStart n p) ≤ r → r < n → (r < stop ↔ r < c) := by
      intro r from_start to_n
      rw [← scanned r (by omega) to_n, agree r from_start to_n, cross]
    -- the two crossings differ at the first point past the lower one
    obtain less | equal | more := Nat.lt_trichotomy stop c
    · by_contra apart
      have := sides (max 1 stop) (by omega) (by omega)
      omega
    · rw [equal]
    · by_contra apart
      have := sides (max 1 (max (ppfStart n p) c)) (by omega) (by omega)
      omega

/-- With 16 trials at 1/2 the scan starts at 2. -/
theorem ppfStart_sixteen : ppfStart 16 (1 / 2) = 2 := by
  have square : ((16 : Nat) * (1 / 2) * (1 - 1 / 2) : ℝ) = 2 ^ 2 := by norm_num
  have root : √((16 : Nat) * (1 / 2) * (1 - 1 / 2) : ℝ) = 2 := by
    rw [square]
    exact Real.sqrt_sq two_pos.le
  rw [ppfStart, root]
  norm_num

theorem binom_ppf_is_quantile_iff_sixteen :
    IsQuantile (cdf 16 (1 / 2 : ℝ)) (1 / 4) (binomPpf 16 (1 / 2) (1 / 4)) := by
  have mono := cdf_mono 16 (show (0 : ℝ) ≤ 1 / 2 by norm_num) (by norm_num)
  have six : cdf 16 (1 / 2 : ℝ) 6 = 14893 / 65536 := by norm_num [cdf, term, Finset.sum_range_succ, Nat.choose]
  have seven : cdf 16 (1 / 2 : ℝ) 7 = 26333 / 65536 := by norm_num [cdf, term, Finset.sum_range_succ, Nat.choose]
  have start : cdf 16 (1 / 2 : ℝ) (2 - 1) < 1 / 4 := by norm_num [cdf, term, Finset.sum_range_succ]
  refine (binom_ppf_is_quantile_iff (by norm_num) (by norm_num) (by norm_num)).mpr ⟨?_, ?_⟩
  · rw [ppfStart_sixteen]
    exact Or.inr start
  · intro r _ inside
    apply binomCdf_agrees (by norm_num) (by norm_num) inside.le (by norm_num)
    -- the level lies between the sums at 6 and at 7, far from both
    obtain before | after := Nat.lt_or_ge 6 r
    · right
      have small := Real.add_one_le_exp (-(3 * (1 / 2 ^ 24)) : ℝ)
      have far := mono before
      rw [seven] at far
      nlinarith
    · left
      have small : Real.exp (3 * (1 / 2 ^ 24)) ≤ (1 - 3 * (1 / 2 ^ 24))⁻¹ := by
        rw [← neg_neg (3 * (1 / 2 ^ 24) : ℝ), Real.exp_neg]
        apply inv_anti₀ (by norm_num)
        have := Real.add_one_le_exp (-(3 * (1 / 2 ^ 24)) : ℝ)
        linarith
      have near := mono after
      rw [six] at near
      calc cdf 16 (1 / 2) r * Real.exp (3 * (1 / 2 ^ 24)) ≤ 14893 / 65536 * (1 - 3 * (1 / 2 ^ 24))⁻¹ :=
            mul_le_mul near small (Real.exp_pos _).le (by norm_num)
        _ < 1 / 4 := by norm_num

/-- The level is below the probability of no success. -/
theorem binom_ppf_starts_past_quantile :
    ¬ IsQuantile (cdf 16 (1 / 2 : ℝ)) (1 / 2 ^ 17) (binomPpf 16 (1 / 2) (1 / 2 ^ 17)) := by
  apply not_isQuantile_of_start (by norm_num) (by norm_num) (by norm_num)
  · exact ppfStart_sixteen.ge
  · rw [ppfStart_sixteen]
    norm_num [cdf, term, Finset.sum_range_succ]

end Roga
