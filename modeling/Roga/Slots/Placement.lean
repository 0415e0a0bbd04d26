import Mathlib.Algebra.BigOperators.Group.Finset.Basic
import Mathlib.Algebra.BigOperators.Group.Finset.Piecewise
import Mathlib.Algebra.Order.BigOperators.Group.Finset
import Mathlib.Order.Bounds.Basic

/-! Placing items at levels of bounded size, each no deeper than its own bound.
A placement that leaves an item above a legal level, or out, only when that level
is full leaves out as few items as any. -/
namespace Roga
open Finset
variable {cap : Nat → Nat} {bounds : List Nat} {choice : List (Option Nat)}

/-- Every item is at a level up to its bound, or left out, and no level holds too many. -/
structure Legal (cap : Nat → Nat) (bounds : List Nat) (choice : List (Option Nat)) : Prop where
  level : List.Forall₂ (fun bound place => ∀ l ∈ place, l ≤ bound) bounds choice
  room : ∀ l, choice.count (some l) ≤ cap l

/-- Every item lies below all its legal levels with room. -/
structure Saturated (cap : Nat → Nat) (bounds : List Nat) (choice : List (Option Nat)) : Prop
    extends Legal cap bounds choice where
  deep : List.Forall₂ (fun bound place => ∀ l ≤ bound, (∀ m ∈ place, m < l) →
    choice.count (some l) = cap l) bounds choice

section Counting

/-- The items placed above level `t` or left out. -/
theorem countP_above (choice : List (Option Nat)) (t : Nat) :
    choice.countP (fun place => place.all (· < t)) = choice.count none + ∑ l ∈ range t, choice.count (some l) := by
  induction choice with
  | nil => simp
  | cons place choice ih =>
    rw [List.countP_cons, ih, List.count_cons]
    simp only [List.count_cons, sum_add_distrib]
    cases place with
    | none => simp; omega
    | some m =>
      have hit : ∑ l ∈ range t, (if (some m == some l) = true then 1 else 0) = if m < t then 1 else 0 := by
        simp only [beq_iff_eq, Option.some.injEq, sum_ite_eq, mem_range]
      rw [hit]
      simp
      omega

theorem countP_le_of_forall₂ {p : Nat → Bool} {q : Option Nat → Bool}
    (imp : List.Forall₂ (fun bound place => p bound = true → q place = true) bounds choice) :
    bounds.countP p ≤ choice.countP q := by
  induction imp with
  | nil => exact Nat.le_refl _
  | @cons bound place bounds choice head _ ih =>
    rw [List.countP_cons, List.countP_cons]
    cases hp : p bound with
    | false => exact ih.trans (Nat.le_add_right _ _)
    | true =>
      rw [head hp]
      exact Nat.add_le_add_right ih _

/-- The items that have to lie above `t` fill its levels, or are left out. -/
theorem Legal.countP_le (legal : Legal cap bounds choice) (t : Nat) :
    bounds.countP (· < t) ≤ choice.count none + ∑ l ∈ range t, cap l := by
  have above : bounds.countP (· < t) ≤ choice.countP fun place => place.all (· < t) := by
    refine countP_le_of_forall₂ (legal.level.imp fun bound place level small => ?_)
    cases place with
    | none => rfl
    | some m => simpa using (level m rfl).trans_lt (by simpa using small)
  refine above.trans ?_
  rw [countP_above]
  exact Nat.add_le_add_left (sum_le_sum fun l _ => legal.room l) _

end Counting

section Optimal

/-- The first level with room, if there is one above `top`. -/
theorem exists_first_room (cap counts : Nat → Nat) (top : Nat) :
    ∃ t ≤ top, (∀ l < t, counts l = cap l) ∧ (t < top → counts t ≠ cap t) := by
  induction top with
  | zero => exact ⟨0, le_rfl, fun l hl => absurd hl (Nat.not_lt_zero l), fun h => absurd h (Nat.not_lt_zero 0)⟩
  | succ top ih =>
    obtain ⟨t, ht, full, free⟩ := ih
    rcases Nat.lt_or_eq_of_le ht with before | rfl
    · exact ⟨t, ht.trans (Nat.le_succ _), full, fun _ => free before⟩
    · by_cases last : counts t = cap t
      · refine ⟨t + 1, le_rfl, fun l hl => ?_, fun h => absurd h (Nat.lt_irrefl _)⟩
        rcases Nat.lt_succ_iff_lt_or_eq.mp hl with h | rfl
        · exact full l h
        · exact last
      · exact ⟨t, Nat.le_succ _, full, fun _ => last⟩

/-- An item above a level with room cannot be placed there. -/
theorem countP_above_le {counts : Nat → Nat} {t top : Nat} (deep : List.Forall₂ (fun bound place =>
      ∀ l ≤ bound, (∀ m ∈ place, m < l) → counts l = cap l) bounds choice)
    (below : ∀ b ∈ bounds, b < top) (free : t < top → counts t ≠ cap t) :
    choice.countP (fun place => place.all (· < t)) ≤ bounds.countP (· < t) := by
  induction deep with
  | nil => exact Nat.le_refl _
  | @cons bound place bounds choice head _ ih =>
    have rest := ih fun b hb => below b (.tail _ hb)
    rw [List.countP_cons, List.countP_cons]
    by_cases small : bound < t
    · rw [if_pos (decide_eq_true small)]
      exact Nat.add_le_add rest (by split <;> omega)
    · have deeper : ¬ (place.all fun l => decide (l < t)) = true := fun above => by
        have top' := below bound (.head _)
        refine free (by omega) (head t (Nat.le_of_not_lt small) fun m hm => ?_)
        rw [Option.mem_def.mp hm] at above
        simpa using above
      rw [if_neg deeper]
      exact rest.trans (Nat.le_add_right _ _)

/-- A saturated placement fills the levels above some `t` with items that have to lie there. -/
theorem Saturated.threshold (sat : Saturated cap bounds choice) {top : Nat} (below : ∀ b ∈ bounds, b < top) :
    ∃ t ≤ top, choice.count none + ∑ l ∈ range t, cap l ≤ bounds.countP (· < t) := by
  obtain ⟨t, ht, full, free⟩ := exists_first_room cap (fun l => choice.count (some l)) top
  have levels : ∑ l ∈ range t, cap l = ∑ l ∈ range t, choice.count (some l) :=
    sum_congr rfl fun l hl => (full l (mem_range.mp hl)).symm
  refine ⟨t, ht, ?_⟩
  rw [levels, ← countP_above]
  exact countP_above_le sat.deep below free

theorem Saturated.count_none_le (sat : Saturated cap bounds choice) {choice' : List (Option Nat)}
    (legal : Legal cap bounds choice') : choice.count none ≤ choice'.count none := by
  have below : ∀ b ∈ bounds, b < bounds.sum + 1 := fun b hb => Nat.lt_succ_of_le (List.le_sum_of_mem hb)
  obtain ⟨t, -, least⟩ := sat.threshold below
  have most := legal.countP_le t
  omega

/-- A saturated placement leaves out as few items as possible. -/
theorem Saturated.isLeast (sat : Saturated cap bounds choice) :
    IsLeast {n | ∃ choice', Legal cap bounds choice' ∧ choice'.count none = n} (choice.count none) := by
  refine ⟨⟨choice, sat.toLegal, rfl⟩, ?_⟩
  rintro n ⟨choice', legal, rfl⟩
  exact sat.count_none_le legal

end Optimal

section Extend

theorem Saturated.nil (cap : Nat → Nat) : Saturated cap [] [] :=
  ⟨⟨.nil, fun _ => Nat.zero_le _⟩, .nil⟩

/-- One more item that finds no room. -/
theorem Saturated.snoc_none (sat : Saturated cap bounds choice) {bound : Nat}
    (full : ∀ l ≤ bound, choice.count (some l) = cap l) : Saturated cap (bounds ++ [bound]) (choice ++ [none]) := by
  have same : ∀ l, (choice ++ [none]).count (some l) = choice.count (some l) := fun l => by simp
  constructor
  · refine ⟨List.rel_append sat.level (.cons (fun l hl => by simp at hl) .nil), fun l => ?_⟩
    rw [same]
    exact sat.room l
  · simp only [same]
    exact List.rel_append sat.deep (.cons (fun l hl _ => full l hl) .nil)

/-- One more item at the deepest level with room. -/
theorem Saturated.snoc_some (sat : Saturated cap bounds choice) {bound place : Nat} (level : place ≤ bound)
    (free : choice.count (some place) < cap place)
    (full : ∀ l, place < l → l ≤ bound → choice.count (some l) = cap l) :
    Saturated cap (bounds ++ [bound]) (choice ++ [some place]) := by
  have more : ∀ l, (choice ++ [some place]).count (some l) = choice.count (some l) + if place = l then 1 else 0 :=
    fun l => by simp [List.count_singleton]
  have room : ∀ l, (choice ++ [some place]).count (some l) ≤ cap l := fun l => by
    have := sat.room l
    rw [more]
    split
    · rename_i same
      exact same ▸ free
    · exact this
  have stays : ∀ l, choice.count (some l) = cap l → (choice ++ [some place]).count (some l) = cap l :=
    fun l h => Nat.le_antisymm (room l) (by rw [more]; omega)
  constructor
  · exact ⟨List.rel_append sat.level (.cons (fun l hl => by simp at hl; omega) .nil), room⟩
  · refine List.rel_append (sat.deep.imp fun b o deep l hl above => stays l (deep l hl above)) (.cons ?_ .nil)
    exact fun l hl above => stays l (full l (above place rfl) hl)

end Extend
end Roga
