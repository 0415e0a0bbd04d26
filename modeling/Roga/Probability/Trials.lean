import Roga.Probability.Binomial
import Roga.Probability.Tape

/-! Independent trials on a tape: the number of hits is binomial, and two words seldom
fall into one of many equally likely classes. -/
namespace Roga.Trials
open Finset Tape Binomial

section Tails
variable {𝕜 : Type} [Field 𝕜]

/-- Pascal's rule. -/
theorem term_succ (n : Nat) (p : 𝕜) (i : Nat) : term (n + 1) p (i + 1) = p * term n p i + (1 - p) * term n p (i + 1) := by
  rw [term, term, term, Nat.choose_succ_succ, Nat.add_sub_add_right]
  push_cast
  rcases Nat.lt_or_ge i n with inside | outside
  · have next : n - i = n - (i + 1) + 1 := by omega
    rw [next]
    ring
  · rw [Nat.choose_eq_zero_of_lt (Nat.lt_succ_of_le outside)]
    push_cast
    ring

theorem term_zero (n : Nat) (p : 𝕜) : term (n + 1) p 0 = (1 - p) * term n p 0 := by
  rw [term, term, Nat.choose_zero_right, Nat.choose_zero_right, Nat.sub_zero, Nat.sub_zero, pow_succ]
  ring

theorem term_beyond {n i : Nat} (p : 𝕜) (beyond : n < i) : term n p i = 0 := by
  rw [term, Nat.choose_eq_zero_of_lt beyond, Nat.cast_zero, zero_mul, zero_mul]

/-- The upper tail is what the terms below it leave. -/
theorem upperTail_eq (n : Nat) (p : 𝕜) (k : Nat) : upperTail n p k = 1 - ∑ i ∈ range k, term n p i := by
  have whole : ∑ i ∈ range (n + 1), term n p i = 1 := cdf_full n p
  rcases Nat.lt_or_ge n k with beyond | inside
  · have rest : ∑ i ∈ range k, term n p i = ∑ i ∈ range (n + 1), term n p i := by
      refine (sum_subset (range_subset_range.mpr beyond) fun i _ hi => ?_).symm
      exact term_beyond p (by simpa using hi)
    rw [rest, whole, sub_self, upperTail, Icc_eq_empty_of_lt beyond, sum_empty]
  · rw [← whole, ← sum_range_add_sum_Ico _ (show k ≤ n + 1 by omega), add_sub_cancel_left]
    rfl

variable [LinearOrder 𝕜] [IsStrictOrderedRing 𝕜] {p : 𝕜}

theorem sum_term_succ_le (n : Nat) (low : 0 ≤ p) (high : p ≤ 1) (k : Nat) :
    ∑ i ∈ range k, term (n + 1) p i ≤ ∑ i ∈ range k, term n p i := by
  cases k with
  | zero => exact le_refl _
  | succ k =>
    have shifted : ∑ i ∈ range (k + 1), term (n + 1) p i =
        p * ∑ i ∈ range k, term n p i + (1 - p) * ∑ i ∈ range (k + 1), term n p i := by
      rw [sum_range_succ', sum_range_succ' (term n p), term_zero]
      simp only [term_succ]
      rw [sum_add_distrib, ← mul_sum, ← mul_sum]
      ring
    have last : ∑ i ∈ range k, term n p i ≤ ∑ i ∈ range (k + 1), term n p i := by
      rw [sum_range_succ]
      exact le_add_of_nonneg_right (term_nonneg n low high k)
    rw [shifted]
    nlinarith

/-- More trials, more hits. -/
theorem upperTail_mono_trials (low : 0 ≤ p) (high : p ≤ 1) (k : Nat) : Monotone fun n => upperTail n p k := by
  refine monotone_nat_of_le_succ fun n => ?_
  rw [upperTail_eq, upperTail_eq]
  exact sub_le_sub_left (sum_term_succ_le n low high k) 1

end Tails

section Hits
variable {W : Type} {M : Nat}

/-- The number of hits at these positions. -/
def hits (hit : W → Bool) (positions : Finset (Fin M)) (tape : Fin M → W) : Nat :=
  (positions.filter fun i => hit (tape i) = true).card

variable [Fintype W] [Nonempty W] {hit : W → Bool}

theorem rate_not (hit : W → Bool) : rate (fun word => !hit word) = 1 - rate hit := by
  have words : (Fintype.card W : ℝ) ≠ 0 := Nat.cast_ne_zero.mpr Fintype.card_ne_zero
  have split := card_filter_add_card_filter_not (s := (univ : Finset W)) fun word => hit word = true
  have missed : lowWords (fun word => !hit word) = univ.filter fun word => ¬ hit word = true := by
    ext word
    rw [mem_lowWords, mem_filter, and_iff_right (mem_univ word), Bool.not_eq_true', Bool.not_eq_true]
  rw [card_univ] at split
  rw [eq_sub_iff_add_eq, rate, rate, missed, ← add_div, div_eq_one_iff_eq words, add_comm]
  exact_mod_cast split

omit [Nonempty W] in
theorem rate_le_one (hit : W → Bool) : rate hit ≤ 1 :=
  div_le_one_of_le₀ (Nat.cast_le.mpr (card_le_univ _)) (Nat.cast_nonneg _)

/-- The hits are at exactly these positions. -/
theorem prob_pattern {positions pattern : Finset (Fin M)} (inside : pattern ⊆ positions) :
    prob (fun tape : Fin M → W => (positions.filter fun i => hit (tape i) = true) = pattern) =
      rate hit ^ pattern.card * (1 - rate hit) ^ (positions.card - pattern.card) := by
  classical
  let boxes (i : Fin M) : Finset W :=
    if i ∈ pattern then lowWords hit else if i ∈ positions then lowWords fun word => !hit word else univ
  have events : (fun tape : Fin M → W => (positions.filter fun i => hit (tape i) = true) = pattern) =
      fun tape => ∀ i, tape i ∈ boxes i := by
    funext tape
    refine propext (Finset.ext_iff.trans (forall_congr' fun i => ?_))
    rw [mem_filter]
    by_cases here : i ∈ pattern
    · rw [show boxes i = lowWords hit from if_pos here, mem_lowWords]
      exact ⟨fun h => (h.mpr here).2, fun h => iff_of_true ⟨inside here, h⟩ here⟩
    by_cases there : i ∈ positions
    · rw [show boxes i = lowWords fun word => !hit word from (if_neg here).trans (if_pos there), mem_lowWords,
        Bool.not_eq_true', ← Bool.not_eq_true]
      exact ⟨fun h missed => here (h.mp ⟨there, missed⟩), fun h => iff_of_false (fun both => h both.2) here⟩
    · rw [show boxes i = univ from (if_neg here).trans (if_neg there)]
      exact iff_of_true (iff_of_false (fun both => there both.1) here) (mem_univ _)
  have words : (Fintype.card W : ℝ) ≠ 0 := Nat.cast_ne_zero.mpr Fintype.card_ne_zero
  have each : ∀ i : Fin M, ((boxes i).card : ℝ) / Fintype.card W =
      if i ∈ pattern then rate hit else if i ∈ positions then 1 - rate hit else 1 := by
    intro i
    by_cases here : i ∈ pattern
    · rw [show boxes i = lowWords hit from if_pos here, if_pos here]
      rfl
    by_cases there : i ∈ positions
    · rw [show boxes i = lowWords fun word => !hit word from (if_neg here).trans (if_pos there), if_neg here, if_pos there,
        ← rate_not]
      rfl
    · rw [show boxes i = univ from (if_neg here).trans (if_neg there), if_neg here, if_neg there, card_univ, div_self words]
  rw [events, prob_box]
  simp only [each]
  rw [prod_ite, prod_const, prod_ite, prod_const, prod_const_one, mul_one, filter_mem_eq_inter, univ_inter]
  congr 2
  rw [filter_filter, ← card_sdiff_of_subset inside]
  congr 1
  ext i
  simp [and_comm]

/-- The number of hits is binomial. -/
theorem prob_hits_eq_le (positions : Finset (Fin M)) (j : Nat) :
    prob (fun tape : Fin M → W => hits hit positions tape = j) ≤ term positions.card (rate hit) j := by
  classical
  let patterns : Finset (Finset (Fin M)) := positions.powersetCard j
  have covered : prob (fun tape : Fin M → W => hits hit positions tape = j) ≤
      prob fun tape : Fin M → W => ∃ pattern ∈ patterns, (positions.filter fun i => hit (tape i) = true) = pattern := by
    refine prob_mono fun tape count => ?_
    exact ⟨_, mem_powersetCard.mpr ⟨filter_subset _ _, count⟩, rfl⟩
  have equal : ∀ pattern ∈ patterns,
      prob (fun tape : Fin M → W => (positions.filter fun i => hit (tape i) = true) = pattern) =
        rate hit ^ j * (1 - rate hit) ^ (positions.card - j) := by
    intro pattern member
    obtain ⟨inside, size⟩ := mem_powersetCard.mp member
    rw [prob_pattern inside, size]
  refine (covered.trans (prob_exists_le_sum _ _)).trans (le_of_eq ?_)
  rw [sum_congr rfl equal, sum_const, card_powersetCard, nsmul_eq_mul, term, mul_assoc]

theorem prob_hits_ge (positions : Finset (Fin M)) (k : Nat) :
    prob (fun tape : Fin M → W => k ≤ hits hit positions tape) ≤ upperTail positions.card (rate hit) k := by
  have covered : prob (fun tape : Fin M → W => k ≤ hits hit positions tape) ≤
      prob fun tape : Fin M → W => ∃ j ∈ Icc k positions.card, hits hit positions tape = j :=
    prob_mono fun tape many => ⟨_, mem_Icc.mpr ⟨many, card_filter_le _ _⟩, rfl⟩
  exact (covered.trans (prob_exists_le_sum _ _)).trans (sum_le_sum fun j _ => prob_hits_eq_le positions j)

theorem prob_hits_lt (positions : Finset (Fin M)) (k : Nat) :
    prob (fun tape : Fin M → W => hits hit positions tape < k) ≤ ∑ j ∈ range k, term positions.card (rate hit) j := by
  have covered : prob (fun tape : Fin M → W => hits hit positions tape < k) ≤
      prob fun tape : Fin M → W => ∃ j ∈ range k, hits hit positions tape = j :=
    prob_mono fun tape less => ⟨_, mem_range.mpr less, rfl⟩
  exact (covered.trans (prob_exists_le_sum _ _)).trans (sum_le_sum fun j _ => prob_hits_eq_le positions j)

/-- No more positions than `n`. -/
theorem prob_hits_ge_le {positions : Finset (Fin M)} {n : Nat} (few : positions.card ≤ n) (k : Nat) :
    prob (fun tape : Fin M → W => k ≤ hits hit positions tape) ≤ upperTail n (rate hit) k :=
  (prob_hits_ge positions k).trans (upperTail_mono_trials (rate_nonneg hit) (rate_le_one hit) k few)

end Hits

section Classes
variable {W : Type} [Fintype W] [Nonempty W] {M : Nat} {n : Nat} {f : W → Nat}

/-- Classes that can be moved onto each other are equally likely. -/
theorem rate_class (inside : ∀ word, f word < n) (move : ∀ c < n, ∀ c' < n, ∃ g : W → W, Function.Injective g ∧
    ∀ word, f word = c → f (g word) = c') {c : Nat} (hc : c < n) : rate (fun word => decide (f word = c)) = 1 / n := by
  have sizes : ∀ c < n, ∀ c' < n,
      (univ.filter fun word => f word = c).card ≤ (univ.filter fun word => f word = c').card := by
    intro c hc c' hc'
    obtain ⟨g, injective, moves⟩ := move c hc c' hc'
    refine card_le_card_of_injOn g (fun word hword => ?_) injective.injOn
    exact mem_filter.mpr ⟨mem_univ _, moves word (mem_filter.mp hword).2⟩
  have total : Fintype.card W = ∑ c ∈ range n, (univ.filter fun word => f word = c).card :=
    card_eq_sum_card_fiberwise fun word _ => mem_range.mpr (inside word)
  have equal : Fintype.card W = n * (univ.filter fun word => f word = c).card := by
    rw [total, sum_congr rfl fun c' hc' => Nat.le_antisymm (sizes c' (mem_range.mp hc') c hc) (sizes c hc c' (mem_range.mp hc')),
      sum_const, card_range, smul_eq_mul]
  have low : lowWords (fun word => decide (f word = c)) = univ.filter fun word => f word = c := by
    ext word
    rw [mem_lowWords, decide_eq_true_eq, mem_filter, and_iff_right (mem_univ word)]
  have words : (Fintype.card W : ℝ) ≠ 0 := Nat.cast_ne_zero.mpr Fintype.card_ne_zero
  have some : (n : ℝ) ≠ 0 := by
    have : n ≠ 0 := Nat.ne_of_gt ((Nat.zero_le c).trans_lt hc)
    exact Nat.cast_ne_zero.mpr this
  rw [rate, low, div_eq_div_iff words some, one_mul, mul_comm]
  exact_mod_cast equal.symm

/-- Two words share a class with the probability of one class. -/
theorem prob_same_class (inside : ∀ word, f word < n) (equal : ∀ c < n, rate (fun word => decide (f word = c)) = 1 / n)
    {i j : Fin M} (other : i ≠ j) : prob (fun tape : Fin M → W => f (tape i) = f (tape j)) ≤ 1 / n := by
  have each : ∀ c ∈ range n, prob (fun tape : Fin M → W => f (tape i) = c ∧ f (tape j) = c) ≤ (1 / n) ^ 2 := by
    intro c hc
    have both := @prob_low W M _ (fun word => decide (f word = c)) _ {i, j}
    rw [equal c (mem_range.mp hc), card_pair other] at both
    refine le_trans (prob_mono fun tape h => ?_) both.le
    simpa using h
  have covered : prob (fun tape : Fin M → W => f (tape i) = f (tape j)) ≤
      prob fun tape : Fin M → W => ∃ c ∈ range n, f (tape i) = c ∧ f (tape j) = c :=
    prob_mono fun tape same => ⟨_, mem_range.mpr (inside (tape j)), same, rfl⟩
  refine ((covered.trans (prob_exists_le_sum _ _)).trans (sum_le_sum each)).trans (le_of_eq ?_)
  rw [sum_const, card_range, nsmul_eq_mul, sq]
  rcases Nat.eq_zero_or_pos n with rfl | some
  · simp
  · have : (n : ℝ) ≠ 0 := Nat.cast_ne_zero.mpr some.ne'
    field_simp

/-- The birthday bound. -/
theorem prob_collision (inside : ∀ word, f word < n) (equal : ∀ c < n, rate (fun word => decide (f word = c)) = 1 / n) :
    prob (fun tape : Fin M → W => ∃ j i, i < j ∧ f (tape i) = f (tape j)) ≤ M.choose 2 / n := by
  have each : ∀ j ∈ (univ : Finset (Fin M)),
      prob (fun tape : Fin M → W => ∃ i ∈ Iio j, f (tape i) = f (tape j)) ≤ (j : Nat) * (1 / n) := by
    intro j _
    have pairs : ∀ i ∈ Iio j, prob (fun tape : Fin M → W => f (tape i) = f (tape j)) ≤ 1 / n := fun i before =>
      prob_same_class inside equal (mem_Iio.mp before).ne
    refine ((prob_exists_le_sum _ _).trans (sum_le_sum pairs)).trans (le_of_eq ?_)
    rw [sum_const, Fin.card_Iio, nsmul_eq_mul]
  have covered : prob (fun tape : Fin M → W => ∃ j i, i < j ∧ f (tape i) = f (tape j)) ≤
      prob fun tape : Fin M → W => ∃ j ∈ (univ : Finset (Fin M)), ∃ i ∈ Iio j, f (tape i) = f (tape j) := by
    refine prob_mono fun tape h => ?_
    obtain ⟨j, i, before, same⟩ := h
    exact ⟨j, mem_univ j, i, mem_Iio.mpr before, same⟩
  refine ((covered.trans (prob_exists_le_sum _ _)).trans (sum_le_sum each)).trans (le_of_eq ?_)
  rw [← sum_mul, ← Nat.cast_sum, Fin.sum_univ_eq_sum_range (fun j => j), sum_range_id, Nat.choose_two_right, mul_one_div]

end Classes
end Roga.Trials
