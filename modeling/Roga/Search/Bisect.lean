import Mathlib.Order.Bounds.Basic
import Mathlib.Tactic

/-! Binary search over a half-open range of numbers: the loop narrows the range to the
least number that meets a predicate which holds from some number on. -/
namespace Roga
variable {meets : Nat → Prop} [DecidablePred meets] {low high : Nat}

/-- `while low < high`, halving the range at its midpoint. -/
def bisect (meets : Nat → Prop) [DecidablePred meets] (low high : Nat) : Nat :=
  if low < high then
    let mid := low + (high - low) / 2
    if meets mid then bisect meets low mid else bisect meets (mid + 1) high
  else low
termination_by high - low

variable (meets) in
/-- The search stays in its range and stops at the end of it or where the predicate holds. -/
theorem bisect_stops (range : low ≤ high) :
    low ≤ bisect meets low high ∧ bisect meets low high ≤ high ∧
      (bisect meets low high = high ∨ meets (bisect meets low high)) := by
  fun_induction bisect meets low high with
  | case1 low high more mid holds ih =>
    obtain ⟨above, below, stop⟩ := ih (Nat.le_add_right _ _)
    refine ⟨above, by omega, Or.inr ?_⟩
    obtain same | holds' := stop
    · rw [same]
      exact holds
    · exact holds'
  | case2 low high more mid fails ih =>
    obtain ⟨above, below, stop⟩ := ih (by omega)
    exact ⟨by omega, below, stop⟩
  | case3 low high done =>
    obtain rfl := Nat.le_antisymm range (Nat.le_of_not_lt done)
    exact ⟨Nat.le_refl _, Nat.le_refl _, Or.inl rfl⟩

/-- Where the predicate is upward closed it fails at all numbers that the search has passed. -/
theorem bisect_passed (closed : ∀ i j, i ≤ j → meets i → meets j) {k : Nat} (from_low : low ≤ k)
    (passed : k < bisect meets low high) : ¬ meets k := by
  fun_induction bisect meets low high with
  | case1 low high more mid holds ih => exact ih from_low passed
  | case2 low high more mid fails ih =>
    by_cases far : mid + 1 ≤ k
    · exact ih far passed
    · exact fun holds => fails (closed k mid (by omega) holds)
  | case3 low high done => exact absurd passed (Nat.not_lt.mpr from_low)

/-- A number past which the predicate holds throughout is not exceeded. -/
theorem bisect_le {k : Nat} (range : low ≤ k) (holds : ∀ j, k ≤ j → meets j) : bisect meets low high ≤ k := by
  fun_induction bisect meets low high with
  | case1 low high more mid holds' ih => exact ih range
  | case2 low high more mid fails ih => exact ih (Nat.lt_of_not_le fun past => fails (holds mid past))
  | case3 low high done => exact range

/-- The search finds the least number of its range. -/
theorem bisect_eq {k : Nat} (cross : ∀ j, meets j ↔ k ≤ j) (above : low ≤ k) (below : k ≤ high) :
    bisect meets low high = k := by
  apply Nat.le_antisymm
  · exact bisect_le above fun j => (cross j).mpr
  · obtain ⟨-, -, last | holds⟩ := bisect_stops meets (above.trans below)
    · exact below.trans last.ge
    · exact (cross _).mp holds

end Roga
