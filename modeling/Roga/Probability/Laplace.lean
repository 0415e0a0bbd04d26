import Mathlib.Topology.Algebra.InfiniteSum.NatInt
import Mathlib.Analysis.SpecificLimits.Basic
import Roga.Probability.Tape

/-! The difference of two capped runs of low words, and the discrete Laplace law that it
follows up to the draws that reach the cap. -/
namespace Roga.Laplace
open Finset Tape
variable {W : Type} {q : ℝ}

/-- The discrete Laplace law with this ratio. -/
noncomputable def mass (q : ℝ) (z : Int) : ℝ := (1 - q) / (1 + q) * q ^ z.natAbs

/-- The probability of a set of outcomes. -/
noncomputable def law (q : ℝ) (O : Set Int) : ℝ := tsum (O.indicator (mass q))

section Law

theorem mass_nonneg (pos : 0 ≤ q) (below : q < 1) (z : Int) : 0 ≤ mass q z :=
  mul_nonneg (div_nonneg (by linarith) (by linarith)) (pow_nonneg pos _)

/-- The masses from a non-negative number on. -/
theorem hasSum_mass_from (pos : 0 ≤ q) (below : q < 1) (start : Nat) :
    HasSum (fun n : Nat => mass q ((start + n : Nat) : Int)) (q ^ start / (1 + q)) := by
  have scaled := (hasSum_geometric_of_lt_one pos below).mul_left ((1 - q) / (1 + q) * q ^ start)
  have whole : (1 - q) / (1 + q) * q ^ start * (1 - q)⁻¹ = q ^ start / (1 + q) := by
    have : 1 - q ≠ 0 := by linarith
    field_simp
  have terms : (fun n : Nat => mass q ((start + n : Nat) : Int)) = fun n => (1 - q) / (1 + q) * q ^ start * q ^ n := by
    funext n
    rw [mass, Int.natAbs_natCast, pow_add, mul_assoc]
  rw [terms, ← whole]
  exact scaled

theorem mass_neg (q : ℝ) (z : Int) : mass q (-z) = mass q z := by rw [mass, mass, Int.natAbs_neg]

theorem hasSum_mass (pos : 0 ≤ q) (below : q < 1) : HasSum (mass q) 1 := by
  have upper := hasSum_mass_from pos below 0
  have lower := hasSum_mass_from pos below 1
  simp only [Nat.zero_add] at upper
  have negative : (fun n : Nat => mass q ((1 + n : Nat) : Int)) = fun n : Nat => mass q (-((n : Int) + 1)) := by
    funext n
    rw [mass_neg, Nat.add_comm, Nat.cast_add, Nat.cast_one]
  rw [negative] at lower
  have both := upper.of_nat_of_neg_add_one lower
  have whole : q ^ 0 / (1 + q) + q ^ 1 / (1 + q) = 1 := by
    have : 1 + q ≠ 0 := by linarith
    rw [← add_div, pow_zero, pow_one, div_self this]
  rwa [whole] at both

/-- The upper tail. -/
theorem law_Ioi (pos : 0 ≤ q) (below : q < 1) (z : Nat) : law q (Set.Ioi (z : Int)) = q ^ (z + 1) / (1 + q) := by
  have later : HasSum (fun n : Nat => (Set.Ioi (z : Int)).indicator (mass q) ((n : Nat) : Int)) (q ^ (z + 1) / (1 + q)) := by
    have shifted := hasSum_mass_from pos below (z + 1)
    have terms : (fun n : Nat => mass q ((z + 1 + n : Nat) : Int)) =
        fun n : Nat => (Set.Ioi (z : Int)).indicator (mass q) ((n + (z + 1) : Nat) : Int) := by
      funext n
      rw [Set.indicator_of_mem (Set.mem_Ioi.mpr (by omega)), Nat.add_comm]
    rw [terms, hasSum_nat_add_iff (f := fun n : Nat => (Set.Ioi (z : Int)).indicator (mass q) (n : Int)) (z + 1)] at shifted
    have none : ∑ i ∈ range (z + 1), (Set.Ioi (z : Int)).indicator (mass q) (i : Int) = 0 := by
      apply sum_eq_zero
      intro i hi
      have := mem_range.mp hi
      exact Set.indicator_of_notMem (fun above => by have := Set.mem_Ioi.mp above; omega) _
    rwa [none, add_zero] at shifted
  have earlier : HasSum (fun n : Nat => (Set.Ioi (z : Int)).indicator (mass q) (-((n : Int) + 1))) 0 := by
    have terms : (fun n : Nat => (Set.Ioi (z : Int)).indicator (mass q) (-((n : Int) + 1))) = fun _ => 0 := by
      funext n
      exact Set.indicator_of_notMem (fun above => by have := Set.mem_Ioi.mp above; omega) _
    rw [terms]
    exact hasSum_zero
  rw [law, (later.of_nat_of_neg_add_one earlier).tsum_eq, add_zero]

theorem law_compl (pos : 0 ≤ q) (below : q < 1) (O : Set Int) : law q Oᶜ = 1 - law q O := by
  have all := hasSum_mass pos below
  have both := (all.summable.indicator O).tsum_add (all.summable.indicator Oᶜ)
  have whole : (fun z => O.indicator (mass q) z + Oᶜ.indicator (mass q) z) = mass q := by
    funext z
    exact congrFun (Set.indicator_self_add_compl O (mass q)) z
  rw [whole, all.tsum_eq] at both
  rw [law, law]
  linarith

/-- Finitely many outcomes. -/
theorem sum_mass_le (pos : 0 ≤ q) (below : q < 1) (O : Set Int) (outcomes : Finset Int) (inside : ∀ z ∈ outcomes, z ∈ O) :
    ∑ z ∈ outcomes, mass q z ≤ law q O := by
  have all := ((hasSum_mass pos below).summable.indicator O).sum_le_tsum outcomes fun z _ =>
    Set.indicator_nonneg (fun z _ => mass_nonneg pos below z) z
  refine (sum_congr rfl fun z hz => ?_).trans_le all
  exact (Set.indicator_of_mem (inside z hz) _).symm

/-- A sum of squares of powers stays below its limit. -/
theorem sum_square_le (pos : 0 ≤ q) (below : q < 1) (n : Nat) : ∑ k ∈ range n, q ^ (2 * k) ≤ 1 / (1 - q ^ 2) := by
  have square : q ^ 2 < 1 := pow_lt_one₀ pos below two_ne_zero
  simp only [pow_mul]
  rw [le_div_iff₀ (by linarith), geom_sum_mul_neg]
  have := pow_nonneg (pow_nonneg pos 2) n
  linarith

end Law

section Runs
variable [Fintype W] [Inhabited W] {below : W → Bool} {M n start start' : Nat}

/-- A run of exactly this length beside a long one. -/
theorem prob_run_eq_and (inside : start + n ≤ M) (inside' : start' + n ≤ M)
    (apart : start + n ≤ start' ∨ start' + n ≤ start) {k l : Nat} (hk : k < n) (hl : l ≤ n) :
    prob (fun tape : Fin M → W => run below (stream tape) start n = k ∧ l ≤ run below (stream tape) start' n) =
      (1 - rate below) * rate below ^ (k + l) := by
  have events : (fun tape : Fin M → W => run below (stream tape) start n = k ∧ l ≤ run below (stream tape) start' n) =
      fun tape => (k ≤ run below (stream tape) start n ∧ l ≤ run below (stream tape) start' n) ∧
        ¬ k + 1 ≤ run below (stream tape) start n := by
    funext tape
    exact propext (by omega)
  have both : (fun tape : Fin M → W => (k ≤ run below (stream tape) start n ∧ l ≤ run below (stream tape) start' n) ∧
      k + 1 ≤ run below (stream tape) start n) =
        fun tape => k + 1 ≤ run below (stream tape) start n ∧ l ≤ run below (stream tape) start' n := by
    funext tape
    exact propext (by omega)
  have next : k + 1 ≤ n := hk
  rw [events, prob_and_not, both, prob_le_runs hk.le hl inside inside' apart,
    prob_le_runs next hl inside inside' apart]
  ring

/-- Two runs of exactly these lengths. -/
theorem prob_runs_eq (inside : start + n ≤ M) (inside' : start' + n ≤ M)
    (apart : start + n ≤ start' ∨ start' + n ≤ start) {k l : Nat} (hk : k < n) (hl : l < n) :
    prob (fun tape : Fin M → W => run below (stream tape) start n = k ∧ run below (stream tape) start' n = l) =
      (1 - rate below) ^ 2 * rate below ^ (k + l) := by
  have events : (fun tape : Fin M → W => run below (stream tape) start n = k ∧ run below (stream tape) start' n = l) =
      fun tape => (run below (stream tape) start n = k ∧ l ≤ run below (stream tape) start' n) ∧
        ¬ l + 1 ≤ run below (stream tape) start' n := by
    funext tape
    exact propext (by omega)
  have both : (fun tape : Fin M → W => (run below (stream tape) start n = k ∧ l ≤ run below (stream tape) start' n) ∧
      l + 1 ≤ run below (stream tape) start' n) =
        fun tape => run below (stream tape) start n = k ∧ l + 1 ≤ run below (stream tape) start' n := by
    funext tape
    exact propext (by omega)
  have next : l + 1 ≤ n := hl
  rw [events, prob_and_not, both, prob_run_eq_and inside inside' apart hk hl.le,
    prob_run_eq_and inside inside' apart hk next]
  ring

/-- One run exceeds the other by more than `z` no likelier than under the law without caps. -/
theorem prob_exceeds_le (lt : rate below < 1) (inside : start + n ≤ M) (inside' : start' + n ≤ M)
    (apart : start + n ≤ start' ∨ start' + n ≤ start) (z : Nat) :
    prob (fun tape : Fin M → W => run below (stream tape) start' n + z < run below (stream tape) start n) ≤
      rate below ^ (z + 1) / (1 + rate below) := by
  have pos := rate_nonneg below
  let event (k : Nat) (tape : Fin M → W) : Prop :=
    run below (stream tape) start' n = k ∧ z + 1 + k ≤ run below (stream tape) start n
  have each : ∀ k ∈ range n, prob (event k) ≤ (1 - rate below) * rate below ^ (z + 1) * rate below ^ (2 * k) := by
    intro k hk
    by_cases room : z + 1 + k ≤ n
    · have equal : prob (event k) = _ := prob_run_eq_and inside' inside apart.symm (mem_range.mp hk) room
      rw [equal]
      apply le_of_eq
      ring
    · have zero : prob (event k) = 0 := prob_eq_zero fun tape h => by
        have := run_le below (stream tape) start n
        have := h.2
        omega
      rw [zero]
      exact mul_nonneg (mul_nonneg (by linarith) (pow_nonneg pos _)) (pow_nonneg pos _)
  have covered : prob (fun tape : Fin M → W => run below (stream tape) start' n + z < run below (stream tape) start n) ≤
      prob fun tape => ∃ k ∈ range n, event k tape := by
    apply prob_mono
    intro tape above
    have := run_le below (stream tape) start n
    exact ⟨run below (stream tape) start' n, mem_range.mpr (by omega), rfl, by omega⟩
  have limit := sum_square_le pos lt n
  have whole : (1 - rate below) * rate below ^ (z + 1) * (1 / (1 - rate below ^ 2)) =
      rate below ^ (z + 1) / (1 + rate below) := by
    have : 1 - rate below ≠ 0 := by linarith
    rw [show 1 - rate below ^ 2 = (1 - rate below) * (1 + rate below) by ring]
    field_simp
  calc prob (fun tape : Fin M → W => run below (stream tape) start' n + z < run below (stream tape) start n)
      ≤ ∑ k ∈ range n, prob (event k) := covered.trans (prob_exists_le_sum _ _)
    _ ≤ ∑ k ∈ range n, (1 - rate below) * rate below ^ (z + 1) * rate below ^ (2 * k) := sum_le_sum each
    _ = (1 - rate below) * rate below ^ (z + 1) * ∑ k ∈ range n, rate below ^ (2 * k) := (mul_sum _ _ _).symm
    _ ≤ (1 - rate below) * rate below ^ (z + 1) * (1 / (1 - rate below ^ 2)) :=
      mul_le_mul_of_nonneg_left limit (mul_nonneg (by linarith) (pow_nonneg pos _))
    _ = rate below ^ (z + 1) / (1 + rate below) := whole

/-- Without a draw at its cap the difference has no more than its mass. -/
theorem prob_difference_eq_le (lt : rate below < 1) (inside : start + n ≤ M) (inside' : start' + n ≤ M)
    (apart : start + n ≤ start' ∨ start' + n ≤ start) (z : Int) :
    prob (fun tape : Fin M → W => (run below (stream tape) start n < n ∧ run below (stream tape) start' n < n) ∧
      (run below (stream tape) start n : Int) - run below (stream tape) start' n = z) ≤ mass (rate below) z := by
  have pos := rate_nonneg below
  -- the smaller of the two runs
  let event (k : Nat) (tape : Fin M → W) : Prop :=
    (run below (stream tape) start n < n ∧ run below (stream tape) start' n < n) ∧
      run below (stream tape) start n = z.toNat + k ∧ run below (stream tape) start' n = (-z).toNat + k
  have each : ∀ k ∈ range n, prob (event k) ≤ (1 - rate below) ^ 2 * rate below ^ z.natAbs * rate below ^ (2 * k) := by
    intro k _
    by_cases room : z.toNat + k < n ∧ (-z).toNat + k < n
    · refine (prob_mono fun tape h => h.2).trans ((prob_runs_eq inside inside' apart room.1 room.2).trans_le (le_of_eq ?_))
      have total : z.toNat + k + ((-z).toNat + k) = z.natAbs + 2 * k := by omega
      rw [total, pow_add, mul_assoc]
    · have zero : prob (event k) = 0 := prob_eq_zero fun tape h => room ⟨h.2.1 ▸ h.1.1, h.2.2 ▸ h.1.2⟩
      rw [zero]
      exact mul_nonneg (mul_nonneg (sq_nonneg _) (pow_nonneg pos _)) (pow_nonneg pos _)
  have covered : prob (fun tape : Fin M → W => (run below (stream tape) start n < n ∧
      run below (stream tape) start' n < n) ∧
        (run below (stream tape) start n : Int) - run below (stream tape) start' n = z) ≤
      prob fun tape => ∃ k ∈ range n, event k tape := by
    apply prob_mono
    rintro tape ⟨short, difference⟩
    refine ⟨min (run below (stream tape) start n) (run below (stream tape) start' n), mem_range.mpr ?_, short, ?_, ?_⟩
    · omega
    · omega
    · omega
  have limit := sum_square_le pos lt n
  have whole : (1 - rate below) ^ 2 * rate below ^ z.natAbs * (1 / (1 - rate below ^ 2)) = mass (rate below) z := by
    have : 1 - rate below ≠ 0 := by linarith
    have : 1 + rate below ≠ 0 := by linarith
    rw [mass, show 1 - rate below ^ 2 = (1 - rate below) * (1 + rate below) by ring]
    field_simp
  calc _ ≤ ∑ k ∈ range n, prob (event k) := covered.trans (prob_exists_le_sum _ _)
    _ ≤ ∑ k ∈ range n, (1 - rate below) ^ 2 * rate below ^ z.natAbs * rate below ^ (2 * k) := sum_le_sum each
    _ = (1 - rate below) ^ 2 * rate below ^ z.natAbs * ∑ k ∈ range n, rate below ^ (2 * k) := (mul_sum _ _ _).symm
    _ ≤ (1 - rate below) ^ 2 * rate below ^ z.natAbs * (1 / (1 - rate below ^ 2)) :=
      mul_le_mul_of_nonneg_left limit (mul_nonneg (sq_nonneg _) (pow_nonneg pos _))
    _ = mass (rate below) z := whole

theorem prob_difference_le (lt : rate below < 1) (inside : start + n ≤ M) (inside' : start' + n ≤ M)
    (apart : start + n ≤ start' ∨ start' + n ≤ start) (O : Set Int) :
    prob (fun tape : Fin M → W => (run below (stream tape) start n : Int) - run below (stream tape) start' n ∈ O) ≤
      law (rate below) O + 2 * rate below ^ n := by
  classical
  have pos := rate_nonneg below
  let outcomes : Finset Int := (Icc (-(n : Int)) n).filter (· ∈ O)
  let short (tape : Fin M → W) : Prop := run below (stream tape) start n < n ∧ run below (stream tape) start' n < n
  have small : prob (fun tape : Fin M → W => ∃ z ∈ outcomes, short tape ∧
      (run below (stream tape) start n : Int) - run below (stream tape) start' n = z) ≤ law (rate below) O := by
    refine (prob_exists_le_sum _ _).trans ?_
    refine (sum_le_sum fun z _ => prob_difference_eq_le lt inside inside' apart z).trans ?_
    exact sum_mass_le pos lt O outcomes fun z hz => (mem_filter.mp hz).2
  have capped : prob (fun tape : Fin M → W => ¬ short tape) ≤ 2 * rate below ^ n := by
    have first : prob (fun tape : Fin M → W => n ≤ run below (stream tape) start n) = rate below ^ n :=
      prob_le_run (Nat.le_refl n) inside
    have second : prob (fun tape : Fin M → W => n ≤ run below (stream tape) start' n) = rate below ^ n :=
      prob_le_run (Nat.le_refl n) inside'
    rw [two_mul]
    nth_rewrite 1 [← first]
    rw [← second]
    apply prob_or_le
    intro tape long
    by_contra neither
    exact long ⟨by omega, by omega⟩
  refine (prob_or_le fun tape hit => ?_).trans (add_le_add small capped)
  by_cases both : short tape
  · refine .inl ⟨_, mem_filter.mpr ⟨mem_Icc.mpr ?_, hit⟩, both, rfl⟩
    have := both.1
    have := both.2
    omega
  · exact .inr both

/-- The difference of two capped runs is statistically close to the discrete Laplace law. -/
theorem difference_close (lt : rate below < 1) (inside : start + n ≤ M) (inside' : start' + n ≤ M)
    (apart : start + n ≤ start' ∨ start' + n ≤ start) (O : Set Int) :
    |prob (fun tape : Fin M → W => (run below (stream tape) start n : Int) - run below (stream tape) start' n ∈ O) -
      law (rate below) O| ≤ 2 * rate below ^ n := by
  have hit := prob_difference_le lt inside inside' apart O
  have missed := prob_difference_le lt inside inside' apart Oᶜ
  have rest : prob (fun tape : Fin M → W =>
      (run below (stream tape) start n : Int) - run below (stream tape) start' n ∈ Oᶜ) =
        1 - prob fun tape : Fin M → W => (run below (stream tape) start n : Int) - run below (stream tape) start' n ∈ O := by
    have split := prob_and_not (fun _ : Fin M → W => True) fun tape =>
      (run below (stream tape) start n : Int) - run below (stream tape) start' n ∈ O
    simp only [true_and] at split
    rwa [prob_true] at split
  rw [rest, law_compl (rate_nonneg below) lt] at missed
  rw [abs_le]
  constructor
  · linarith
  · linarith

end Runs
end Roga.Laplace
