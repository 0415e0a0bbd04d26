import Mathlib.Algebra.Order.BigOperators.Group.Finset
import Mathlib.Algebra.Order.Field.Basic
import Mathlib.Data.Nat.Choose.Sum
import Mathlib.Tactic

/-! The binomial distribution as finite sums over an ordered field, and quantiles of a
non-decreasing function of the natural numbers. -/
namespace Roga.Binomial
open Finset
variable {𝕜 : Type} [Field 𝕜] [LinearOrder 𝕜]

/-- The probability of `i` successes in `n` trials. -/
def term (n : Nat) (p : 𝕜) (i : Nat) : 𝕜 := n.choose i * p ^ i * (1 - p) ^ (n - i)

/-- The probability of at most `k` successes. -/
def cdf (n : Nat) (p : 𝕜) (k : Nat) : 𝕜 := ∑ i ∈ range (k + 1), term n p i

/-- The probability of at least `k` successes. -/
def upperTail (n : Nat) (p : 𝕜) (k : Nat) : 𝕜 := ∑ i ∈ Icc k n, term n p i

section Sums

omit [LinearOrder 𝕜] in
theorem cdf_full (n : Nat) (p : 𝕜) : cdf n p n = 1 := by
  have whole := add_pow p (1 - p) n
  rw [add_sub_cancel, one_pow] at whole
  rw [whole, cdf]
  apply sum_congr rfl
  intro i _
  rw [term, mul_assoc, mul_comm]

variable [IsStrictOrderedRing 𝕜] {p : 𝕜}

theorem term_nonneg (n : Nat) (low : 0 ≤ p) (high : p ≤ 1) (i : Nat) : 0 ≤ term n p i :=
  mul_nonneg (mul_nonneg (Nat.cast_nonneg _) (pow_nonneg low _)) (pow_nonneg (sub_nonneg.mpr high) _)

theorem cdf_mono (n : Nat) (low : 0 ≤ p) (high : p ≤ 1) : Monotone (cdf n p) := by
  intro k l le
  apply sum_le_sum_of_subset_of_nonneg
  · exact range_subset_range.mpr (Nat.succ_le_succ le)
  · intro i _ _
    exact term_nonneg n low high i

theorem upperTail_antitone (n : Nat) (low : 0 ≤ p) (high : p ≤ 1) : Antitone (upperTail n p) := by
  intro k l le
  apply sum_le_sum_of_subset_of_nonneg
  · exact Icc_subset_Icc_left le
  · intro i _ _
    exact term_nonneg n low high i

omit [LinearOrder 𝕜] [IsStrictOrderedRing 𝕜] in
/-- The generating function of the distribution. -/
theorem sum_term_mul_pow (n : Nat) (p x : 𝕜) : ∑ i ∈ range (n + 1), term n p i * x ^ i = (p * x + (1 - p)) ^ n := by
  rw [add_pow]
  refine sum_congr rfl fun i _ => ?_
  rw [term, mul_pow]
  ring

/-- Markov's inequality for a power that grows with the successes. -/
theorem upperTail_mul_pow_le (n k : Nat) (low : 0 ≤ p) (high : p ≤ 1) {x : 𝕜} (grows : 1 ≤ x) :
    upperTail n p k * x ^ k ≤ (p * x + (1 - p)) ^ n := by
  have pos : 0 ≤ x := zero_le_one.trans grows
  calc upperTail n p k * x ^ k = ∑ i ∈ Icc k n, term n p i * x ^ k := sum_mul _ _ _
    _ ≤ ∑ i ∈ Icc k n, term n p i * x ^ i := by
      refine sum_le_sum fun i hi => mul_le_mul_of_nonneg_left ?_ (term_nonneg n low high i)
      exact pow_le_pow_right₀ grows (mem_Icc.mp hi).1
    _ ≤ ∑ i ∈ range (n + 1), term n p i * x ^ i := by
      refine sum_le_sum_of_subset_of_nonneg (fun i hi => ?_) fun i _ _ =>
        mul_nonneg (term_nonneg n low high i) (pow_nonneg pos i)
      exact mem_range.mpr (Nat.lt_succ_of_le (mem_Icc.mp hi).2)
    _ = (p * x + (1 - p)) ^ n := sum_term_mul_pow n p x

/-- The same for one that shrinks with them. -/
theorem cdf_mul_pow_le {n k : Nat} (inside : k ≤ n) (low : 0 ≤ p) (high : p ≤ 1) {x : 𝕜} (pos : 0 ≤ x) (shrinks : x ≤ 1) :
    cdf n p k * x ^ k ≤ (p * x + (1 - p)) ^ n := by
  calc cdf n p k * x ^ k = ∑ i ∈ range (k + 1), term n p i * x ^ k := sum_mul _ _ _
    _ ≤ ∑ i ∈ range (k + 1), term n p i * x ^ i := by
      refine sum_le_sum fun i hi => mul_le_mul_of_nonneg_left ?_ (term_nonneg n low high i)
      exact pow_le_pow_of_le_one pos shrinks (Nat.lt_succ_iff.mp (mem_range.mp hi))
    _ ≤ ∑ i ∈ range (n + 1), term n p i * x ^ i := by
      refine sum_le_sum_of_subset_of_nonneg ?_ fun i _ _ => mul_nonneg (term_nonneg n low high i) (pow_nonneg pos i)
      exact range_subset_range.mpr (Nat.succ_le_succ inside)
    _ = (p * x + (1 - p)) ^ n := sum_term_mul_pow n p x

end Sums

section Quantile
variable {F : Nat → 𝕜} {alpha : 𝕜} {c q : Nat}

/-- The largest number where `F` is below `alpha`, or 0 if there is none. -/
def IsQuantile (F : Nat → 𝕜) (alpha : 𝕜) (q : Nat) : Prop :=
  IsGreatest {r | F r < alpha} q ∨ ((∀ r, ¬ F r < alpha) ∧ q = 0)

omit [Field 𝕜] in
/-- A non-decreasing function that reaches `alpha` crosses it once. -/
theorem exists_crossing (mono : Monotone F) {n : Nat} (reached : alpha ≤ F n) : ∃ c ≤ n, ∀ r, F r < alpha ↔ r < c := by
  have somewhere : ∃ k, alpha ≤ F k := ⟨n, reached⟩
  refine ⟨Nat.find somewhere, Nat.find_min' somewhere reached, ?_⟩
  intro r
  constructor
  · intro below
    by_contra past
    exact absurd ((Nat.find_spec somewhere).trans (mono (Nat.le_of_not_lt past))) (not_le.mpr below)
  · intro before
    exact not_le.mp (Nat.find_min somewhere before)

omit [Field 𝕜] in
theorem isQuantile_iff (cross : ∀ r, F r < alpha ↔ r < c) : IsQuantile F alpha q ↔ q = c - 1 := by
  have set : {r | F r < alpha} = {r | r < c} := Set.ext cross
  rw [IsQuantile, set]
  simp only [cross]
  constructor
  · rintro (⟨inside, greatest⟩ | ⟨none, rfl⟩)
    · have inside : q < c := inside
      have last : c - 1 ≤ q := greatest (Nat.sub_lt (by omega) Nat.one_pos)
      omega
    · have := none 0
      omega
  · rintro rfl
    cases c with
    | zero => exact Or.inr ⟨fun r => Nat.not_lt_zero r, rfl⟩
    | succ c =>
      refine Or.inl ⟨Nat.lt_succ_self c, ?_⟩
      intro r before
      exact Nat.le_of_lt_succ before

end Quantile
end Roga.Binomial
