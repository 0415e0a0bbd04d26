import Mathlib.Analysis.SpecialFunctions.Stirling
import Roga.Probability.Tape

/-! Stirling's series up to the cubic term: the logarithm of a factorial lies above it, by less than
the term that would come next. -/
namespace Roga.Factorial
open Filter Topology Stirling Literal

/-- What is left of Stirling's sequence after the linear and the cubic term. -/
noncomputable def rest (n : Nat) : ℝ := Real.log (stirlingSeq n) - 1 / (12 * n) + 1 / (360 * (n : ℝ) ^ 3)

/-- The difference of two neighbours of Stirling's sequence is its series up to the sixth power, and a geometric one. -/
theorem sdiff_bounds (n : Nat) {y : ℝ} (hy : y = 2 * ((n + 1 : Nat) : ℝ) + 1) :
    1 / (3 * y ^ 2) + 1 / (5 * y ^ 4) + 1 / (7 * y ^ 6) ≤ Real.log (stirlingSeq (n + 1)) - Real.log (stirlingSeq (n + 2)) ∧
      Real.log (stirlingSeq (n + 1)) - Real.log (stirlingSeq (n + 2)) ≤
        1 / (3 * y ^ 2) + 1 / (5 * y ^ 4) + 1 / (7 * y ^ 6) + 1 / (9 * (y ^ 6 * (y ^ 2 - 1))) := by
  have large : 1 < y := by
    have : (0 : ℝ) < (n + 1 : Nat) := Nat.cast_pos.mpr (Nat.succ_pos n)
    linarith
  have pos : 0 < y := zero_lt_one.trans large
  have square : 1 < y ^ 2 := one_lt_pow₀ large two_ne_zero
  have series := log_stirlingSeq_sdiff_hasSum n
  rw [← hy] at series
  set f : Nat → ℝ := fun k => 1 / (2 * ((k + 1 : Nat) : ℝ) + 1) * ((1 / y) ^ 2) ^ (k + 1) with hf
  have nonneg : ∀ k, 0 ≤ f k := fun k => by positivity
  have first : ∑ k ∈ Finset.range 3, f k = 1 / (3 * y ^ 2) + 1 / (5 * y ^ 4) + 1 / (7 * y ^ 6) := by
    rw [Finset.sum_range_succ, Finset.sum_range_succ, Finset.sum_range_one, hf]
    norm_num
    ring
  constructor
  · rw [← first]
    exact sum_le_hasSum _ (fun k _ => nonneg k) series
  · have ratio : (1 / y) ^ 2 < 1 := by
      rw [one_div, inv_pow]
      exact inv_lt_one_of_one_lt₀ square
    have geometric := ((hasSum_geometric_of_lt_one (by positivity) ratio).mul_left (((1 / y) ^ 2) ^ 4)).mul_left (1 / 9)
    have tail := (hasSum_nat_add_iff' 3).mpr series
    have each : ∀ k, f (k + 3) ≤ 1 / 9 * (((1 / y) ^ 2) ^ 4 * ((1 / y) ^ 2) ^ k) := by
      intro k
      have power : ((1 / y) ^ 2) ^ (k + 3 + 1) = ((1 / y) ^ 2) ^ 4 * ((1 / y) ^ 2) ^ k := by
        rw [← pow_add]
        congr 1
        ring
      have small : 1 / (2 * ((k + 3 + 1 : Nat) : ℝ) + 1) ≤ 1 / 9 := by
        apply one_div_le_one_div_of_le (by norm_num)
        push_cast
        linarith [Nat.cast_nonneg (α := ℝ) k]
      rw [hf]
      simp only [power]
      exact mul_le_mul_of_nonneg_right small (by positivity)
    have sum : 1 / 9 * (((1 / y) ^ 2) ^ 4 * (1 - (1 / y) ^ 2)⁻¹) = 1 / (9 * (y ^ 6 * (y ^ 2 - 1))) := by
      have : y ^ 2 - 1 ≠ 0 := (sub_pos.mpr square).ne'
      field_simp
    have bound := hasSum_le each tail geometric
    rw [first, sum] at bound
    linarith

/-- From one number to the next the rest falls, and by less than the term of the fifth power does. -/
theorem rest_step (n : Nat) : rest (n + 2) ≤ rest (n + 1) ∧
    rest (n + 1) - rest (n + 2) ≤ 1 / (1260 * ((n + 1 : Nat) : ℝ) ^ 5) - 1 / (1260 * ((n + 2 : Nat) : ℝ) ^ 5) := by
  obtain ⟨lower, upper⟩ := sdiff_bounds n rfl
  have succ : ((n + 2 : Nat) : ℝ) = ((n + 1 : Nat) : ℝ) + 1 := by push_cast; ring
  rw [rest, rest, succ]
  set x : ℝ := ((n + 1 : Nat) : ℝ)
  have pos : 0 < x := Nat.cast_pos.mpr (Nat.succ_pos n)
  -- the bounds are rational functions of this product
  set w : ℝ := x * (x + 1) with hw
  have some : 0 < w := by positivity
  have square : (2 * x + 1) ^ 2 = 4 * w + 1 := by rw [hw]; ring
  have fourth : (2 * x + 1) ^ 4 = (4 * w + 1) ^ 2 := by rw [← square]; ring
  have sixth : (2 * x + 1) ^ 6 = (4 * w + 1) ^ 3 := by rw [← square]; ring
  rw [square, fourth, sixth] at lower upper
  have linear : 1 / (12 * x) - 1 / (12 * (x + 1)) = 1 / (12 * w) := by rw [hw]; field_simp; ring
  have cubic : 1 / (360 * x ^ 3) - 1 / (360 * (x + 1) ^ 3) = (3 * w + 1) / (360 * w ^ 3) := by rw [hw]; field_simp; ring
  have fifth : 1 / (1260 * x ^ 5) - 1 / (1260 * (x + 1) ^ 5) = (5 * w ^ 2 + 5 * w + 1) / (1260 * w ^ 5) := by
    rw [hw]; field_simp; ring
  have below : 1 / (12 * w) - (3 * w + 1) / (360 * w ^ 3) ≤
      1 / (3 * (4 * w + 1)) + 1 / (5 * (4 * w + 1) ^ 2) + 1 / (7 * (4 * w + 1) ^ 3) := by
    rw [← sub_nonneg]
    have : 1 / (3 * (4 * w + 1)) + 1 / (5 * (4 * w + 1) ^ 2) + 1 / (7 * (4 * w + 1) ^ 3) -
        (1 / (12 * w) - (3 * w + 1) / (360 * w ^ 3)) =
        (1 / 360 + w / 24 + 3 * w ^ 2 / 20 + 16 * w ^ 3 / 63) / (w ^ 3 * (4 * w + 1) ^ 3) := by
      field_simp
      ring
    rw [this]
    positivity
  have above : 1 / (3 * (4 * w + 1)) + 1 / (5 * (4 * w + 1) ^ 2) + 1 / (7 * (4 * w + 1) ^ 3) +
      1 / (9 * ((4 * w + 1) ^ 3 * (4 * w + 1 - 1))) ≤
      1 / (12 * w) - (3 * w + 1) / (360 * w ^ 3) + (5 * w ^ 2 + 5 * w + 1) / (1260 * w ^ 5) := by
    rw [← sub_nonneg, add_sub_cancel_right]
    have : 1 / (12 * w) - (3 * w + 1) / (360 * w ^ 3) + (5 * w ^ 2 + 5 * w + 1) / (1260 * w ^ 5) -
        (1 / (3 * (4 * w + 1)) + 1 / (5 * (4 * w + 1) ^ 2) + 1 / (7 * (4 * w + 1) ^ 3) +
          1 / (9 * ((4 * w + 1) ^ 3 * (4 * w)))) =
        (1 / 1260 + 17 * w / 1260 + 73 * w ^ 2 / 840 + 89 * w ^ 3 / 360 + 4 * w ^ 4 / 15) / (w ^ 5 * (4 * w + 1) ^ 3) := by
      field_simp
      ring
    rw [this]
    positivity
  constructor <;> linarith

theorem tendsto_inv_pow (c : ℝ) {k : Nat} (some : k ≠ 0) :
    Tendsto (fun n : Nat => 1 / (c * (n : ℝ) ^ k)) atTop (𝓝 0) := by
  have power : Tendsto (fun n : Nat => ((n : ℝ) ^ k)⁻¹) atTop (𝓝 0) :=
    ((tendsto_pow_atTop some).comp tendsto_natCast_atTop_atTop).inv_tendsto_atTop
  have scaled := power.const_mul (1 / c)
  rw [mul_zero] at scaled
  refine scaled.congr fun n => ?_
  rw [one_div, one_div, mul_inv]

/-- The rest tends to the constant of Stirling's formula. -/
theorem tendsto_rest : Tendsto rest atTop (𝓝 (Real.log Real.pi / 2)) := by
  have constant : Real.log (√Real.pi) = Real.log Real.pi / 2 := by rw [Real.sqrt_eq_rpow, Real.log_rpow Real.pi_pos]; ring
  have main := (Real.continuousAt_log (Real.sqrt_pos.mpr Real.pi_pos).ne').tendsto.comp tendsto_stirlingSeq_sqrt_pi
  rw [constant] at main
  have both := (main.sub (tendsto_inv_pow 12 one_ne_zero)).add (tendsto_inv_pow 360 three_ne_zero)
  rw [sub_zero, add_zero] at both
  refine both.congr fun n => ?_
  rw [rest, pow_one]
  rfl

theorem rest_bounds (n : Nat) : Real.log Real.pi / 2 ≤ rest (n + 1) ∧
    rest (n + 1) ≤ Real.log Real.pi / 2 + 1 / (1260 * ((n + 1 : Nat) : ℝ) ^ 5) := by
  have shifted := tendsto_rest.comp (tendsto_add_atTop_nat 1)
  constructor
  · have falls : Antitone fun n => rest (n + 1) := antitone_nat_of_succ_le fun n => (rest_step n).1
    exact falls.le_of_tendsto shifted n
  · let lowered (n : Nat) : ℝ := rest (n + 1) - 1 / (1260 * ((n + 1 : Nat) : ℝ) ^ 5)
    have rises : Monotone lowered := monotone_nat_of_le_succ fun n => by
      have step := (rest_step n).2
      change rest (n + 1) - 1 / (1260 * ((n + 1 : Nat) : ℝ) ^ 5) ≤ rest (n + 2) - 1 / (1260 * ((n + 2 : Nat) : ℝ) ^ 5)
      linarith
    have limit := shifted.sub ((tendsto_inv_pow 1260 (show 5 ≠ 0 by decide)).comp (tendsto_add_atTop_nat 1))
    rw [sub_zero] at limit
    have bound : rest (n + 1) - 1 / (1260 * ((n + 1 : Nat) : ℝ) ^ 5) ≤ Real.log Real.pi / 2 := rises.ge_of_tendsto limit n
    linarith

/-- Stirling's series up to the cubic term. -/
noncomputable def series (x : ℝ) : ℝ :=
  (x - 1 / 2) * Real.log x - x + Real.log (2 * Real.pi) / 2 + 1 / (12 * x) - 1 / (360 * x ^ 3)

/-- The logarithm of a factorial, and the series for the next number. -/
theorem log_factorial_bounds (n : Nat) : series ((n + 1 : Nat) : ℝ) ≤ Real.log n.factorial ∧
    Real.log n.factorial ≤ series ((n + 1 : Nat) : ℝ) + 1 / (1260 * ((n + 1 : Nat) : ℝ) ^ 5) := by
  obtain ⟨lower, upper⟩ := rest_bounds n
  have pos : (0 : ℝ) < ((n + 1 : Nat) : ℝ) := Nat.cast_pos.mpr (Nat.succ_pos n)
  have fact : ((n.factorial : Nat) : ℝ) ≠ 0 := Nat.cast_ne_zero.mpr n.factorial_ne_zero
  have whole : Real.log (n + 1).factorial = Real.log ((n + 1 : Nat) : ℝ) + Real.log n.factorial := by
    rw [Nat.factorial_succ, Nat.cast_mul, Real.log_mul pos.ne' fact]
  rw [rest, log_stirlingSeq_formula, whole, Real.log_mul two_ne_zero pos.ne', Real.log_div pos.ne' (Real.exp_pos 1).ne',
    Real.log_exp] at lower upper
  rw [series, Real.log_mul two_ne_zero Real.pi_ne_zero]
  constructor <;> linarith

end Roga.Factorial
