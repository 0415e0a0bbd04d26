import Mathlib.Analysis.Complex.ExponentialBounds
import Mathlib.Analysis.Real.Pi.Bounds
import Roga.Probability.Factorial

/-! `ln_gamma`, with its arithmetic over the reals, and its accuracy at the arguments of the binomial solver. -/
namespace Roga

/-- `while x < 8.0`, with `adj`. -/
noncomputable def lnGammaShift (x adj : ℝ) : ℝ × ℝ :=
  if x < 8 then lnGammaShift (x + 1) (adj + Real.log x) else (x, adj)
termination_by ⌈8 - x⌉₊
decreasing_by
  rename_i small
  have pos : 0 < ⌈8 - x⌉₊ := Nat.ceil_pos.mpr (sub_pos.mpr small)
  rw [← sub_sub, Nat.ceil_sub_one]
  exact Nat.sub_lt pos Nat.one_pos

/-- Stirling's series up to the cubic term. -/
noncomputable def lnGamma (x : ℝ) : ℝ :=
  let (x, adj) := lnGammaShift x 0
  (x - 0.5) * Real.log x - x + 0.9189385332046727 + 1 / (12 * x) - 1 / (360 * x ^ 3) - adj

/-- The shift moves a natural number up to 8 and collects what the factorial gains on the way. -/
theorem lnGammaShift_eq (m : Nat) (adj : ℝ) : ∃ n ≥ 7, n ≥ m ∧
    lnGammaShift (m + 1) adj = (((n + 1 : Nat) : ℝ), adj + (Real.log n.factorial - Real.log m.factorial)) := by
  induction hk : 7 - m generalizing m adj with
  | zero =>
    have large : ¬ (m : ℝ) + 1 < 8 := by
      have : (7 : ℝ) ≤ m := by exact_mod_cast (show 7 ≤ m by omega)
      linarith
    refine ⟨m, by omega, Nat.le_refl m, ?_⟩
    rw [lnGammaShift, if_neg large, sub_self, add_zero, Nat.cast_add_one]
  | succ k ih =>
    have small : (m : ℝ) + 1 < 8 := by
      have : (m : ℝ) + 1 ≤ 7 := by exact_mod_cast (show m + 1 ≤ 7 by omega)
      linarith
    obtain ⟨n, shifted, above, equal⟩ := ih (m + 1) (adj + Real.log (m + 1 : Nat)) (by omega)
    refine ⟨n, shifted, by omega, ?_⟩
    have fact : ((m.factorial : Nat) : ℝ) ≠ 0 := Nat.cast_ne_zero.mpr m.factorial_ne_zero
    have gained : Real.log (m + 1).factorial = Real.log (m + 1) + Real.log m.factorial := by
      rw [Nat.factorial_succ, Nat.cast_mul, Nat.cast_add_one, Real.log_mul (Nat.cast_add_one_ne_zero m) fact]
    rw [lnGammaShift, if_pos small, ← Nat.cast_add_one m, equal, gained, Nat.cast_add_one m]
    congr 1
    ring

/-- A logarithm near 1 from its series. -/
theorem log_near (q value : ℝ) (near : |1 - q| ≤ 1 / 20)
    (sum : |(∑ i ∈ Finset.range 7, (1 - q) ^ (i + 1) / ((i : ℝ) + 1)) + value| ≤ 1 / 10 ^ 9) :
    |Real.log q - value| ≤ 2 / 10 ^ 9 := by
  have series := Real.abs_log_sub_add_sum_range_le (near.trans_lt (by norm_num)) 7
  rw [sub_sub_cancel] at series
  have rest : |1 - q| ^ (7 + 1) / (1 - |1 - q|) ≤ 1 / 10 ^ 9 := by
    rw [div_le_iff₀ (by linarith)]
    have power : |1 - q| ^ (7 + 1) ≤ (1 / 20) ^ (7 + 1) := pow_le_pow_left₀ (abs_nonneg _) near _
    have : (1 / 20 : ℝ) ^ (7 + 1) ≤ 1 / 10 ^ 9 * (1 - 1 / 20) := by norm_num
    linarith
  rw [abs_le] at *
  constructor <;> linarith

/-- The constant of the series. -/
theorem lnGamma_constant : |0.9189385332046727 - Real.log (2 * Real.pi) / 2| ≤ 1 / 10 ^ 8 := by
  have split : Real.log (2 * Real.pi) = Real.log 2 + Real.log 3 + Real.log (Real.pi / 3) := by
    rw [← Real.log_mul two_ne_zero three_ne_zero, ← Real.log_mul (by norm_num) (div_ne_zero Real.pi_ne_zero three_ne_zero)]
    congr 1
    ring
  have below : Real.log 1.0471975511 ≤ Real.log (Real.pi / 3) :=
    Real.log_le_log (by norm_num) (by linarith [Real.pi_gt_d20])
  have above : Real.log (Real.pi / 3) ≤ Real.log 1.0471975512 :=
    Real.log_le_log (by positivity) (by linarith [Real.pi_lt_d20])
  have low := log_near 1.0471975511 0.0461175973 (by norm_num [abs_le])
    (by norm_num [Finset.sum_range_succ, abs_le])
  have high := log_near 1.0471975512 0.0461175973 (by norm_num [abs_le])
    (by norm_num [Finset.sum_range_succ, abs_le])
  have two := Real.log_two_gt_d9
  have two' := Real.log_two_lt_d9
  have three := Real.log_three_gt_d9
  have three' := Real.log_three_lt_d9
  rw [abs_le] at *
  rw [split]
  constructor <;> norm_num at * <;> linarith

/-- The series with its rounded constant, and the logarithm of the factorial. -/
theorem lnGamma_near (m : Nat) : |lnGamma (m + 1) - Real.log m.factorial| ≤ 1 / 2 ^ 24 := by
  obtain ⟨n, shifted, -, equal⟩ := lnGammaShift_eq m 0
  obtain ⟨below, above⟩ := Factorial.log_factorial_bounds n
  have constant := lnGamma_constant
  have eight : (8 : ℝ) ≤ (n + 1 : Nat) := by exact_mod_cast Nat.succ_le_succ shifted
  have small : 1 / (1260 * ((n + 1 : Nat) : ℝ) ^ 5) ≤ 1 / (1260 * 8 ^ 5) := by gcongr
  have value : lnGamma (m + 1) - Real.log m.factorial = Factorial.series ((n + 1 : Nat) : ℝ) - Real.log n.factorial +
      (0.9189385332046727 - Real.log (2 * Real.pi) / 2) := by
    rw [lnGamma, equal, Factorial.series]
    norm_num
    ring
  have series : |Factorial.series ((n + 1 : Nat) : ℝ) - Real.log n.factorial| ≤ 1 / (1260 * 8 ^ 5) := by
    rw [abs_le]
    constructor <;> linarith
  rw [value]
  calc |Factorial.series ((n + 1 : Nat) : ℝ) - Real.log n.factorial + (0.9189385332046727 - Real.log (2 * Real.pi) / 2)|
      ≤ |Factorial.series ((n + 1 : Nat) : ℝ) - Real.log n.factorial| +
        |0.9189385332046727 - Real.log (2 * Real.pi) / 2| := abs_add_le _ _
    _ ≤ 1 / (1260 * 8 ^ 5) + 1 / 10 ^ 8 := add_le_add series lnGamma_constant
    _ ≤ 1 / 2 ^ 24 := by norm_num

end Roga
