import Roga.Network.OddEvenMerge
import Roga.Oblivious.DjbsortProofs

/-! `merge_sorted_by` merges two sorted runs of power-of-two lengths. -/
namespace Roga.Djbsort
open Network
variable {P : Type} {greater : P → P → UInt8}

theorem concatWire_eq (first stride len second k : Nat) :
    concatWire first stride len second stride k = concat first len second stride k := rfl

theorem oddEvenMergeByRaw_view (order : WeakOrder (gt greater)) {f : P → Bool}
    (up : Upward (gt greater) f) {x first second len' stride : Nat} (pos : 0 < stride)
    (apart : first + 2 ^ x * stride ≤ second) (short : len' ≤ 2 ^ x) (xs : List P) :
    view f (oddEvenMergeByRaw greater first stride (2 ^ x) second stride len' xs) =
      merge first (2 ^ x) second len' stride (view f xs) := by
  induction x generalizing first second len' stride xs with
  | zero =>
    rw [oddEvenMergeByRaw, merge]
    split
    · rfl
    rename_i some
    have single : len' = 1 := by omega
    rw [if_pos ⟨rfl, single⟩, if_pos ⟨rfl, single⟩]
    exact minmaxByRaw_view order up (by omega) xs
  | succ x ih =>
    have mpos : 0 < 2 ^ x := Nat.two_pow_pos x
    rw [Nat.pow_succ'] at apart short ⊢
    rw [oddEvenMergeByRaw, merge]
    split
    · rfl
    rename_i some
    rw [if_neg (by omega), if_neg (by omega)]
    have halves : (2 * 2 ^ x + 1) / 2 = 2 ^ x ∧ 2 * 2 ^ x / 2 = 2 ^ x := by omega
    simp only [halves.1, halves.2, concatWire_eq]
    have double : 2 ^ x * (stride * 2) = 2 * 2 ^ x * stride := by ring
    unfold layer
    refine List.foldl_rel (r := fun ys w => view f ys = w) ?_ fun i _ ys w h => ?_
    · rw [ih (by omega) (by rw [double]; omega) (by omega), ih (by omega) (by rw [double]; omega) (by omega)]
    · rw [minmaxByRaw_view order up _ ys, h]
      rw [concat_even, concat_odd]
      exact concat_lt pos apart (by omega)

theorem oddEvenMergeByRaw_perm (first stride len second stride' len' : Nat) (xs : List P) :
    (oddEvenMergeByRaw greater first stride len second stride' len' xs).Perm xs := by
  fun_induction oddEvenMergeByRaw greater first stride len second stride' len' xs with
  | case1 => rfl
  | case2 => exact minmaxByRaw_perm _ _ _
  | case3 _ _ _ _ _ _ _ _ _ _ _ _ _ _ _ _ _ _ ih₁ ih₂ =>
    exact List.foldlRecOn (motive := fun ys : List P => ys.Perm _) _ _ (ih₂.trans ih₁)
      fun ys hys i _ => (minmaxByRaw_perm _ _ ys).trans hys

theorem mergeSortedBy_perm (xs : List P) (split : Nat) (greater : P → P → UInt8) :
    (mergeSortedBy xs split greater).Perm xs := by
  simp only [mergeSortedBy]
  by_cases none : split = 0 ∨ xs.length - split = 0
  · rw [if_pos none]
  · rw [if_neg none]
    exact oddEvenMergeByRaw_perm _ _ _ _ _ _ xs

/-- The number of leading zeros of a view of a sorted run. -/
theorem view_threshold {gt : P → P → Bool} {xs : List P}
    (sorted : xs.Pairwise fun a b => gt a b = false) {f : P → Bool} (up : Upward gt f) :
    ∃ a ≤ xs.length, ∀ k < xs.length, view f xs k = decide (a ≤ k) := by
  refine ⟨(xs.takeWhile fun a => !f a).length, (List.takeWhile_sublist _).length_le, fun k hk => ?_⟩
  induction xs generalizing k with
  | nil => simp at hk
  | cons x xs ih =>
    have tail := List.pairwise_cons.mp sorted
    cases hx : f x with
    | true =>
      rw [List.takeWhile_cons_of_neg (by simp [hx])]
      rw [view_of_sorted sorted up (Nat.zero_le k) hk (by rw [view_get _ (by simp)]; simpa using hx)]
      simp
    | false =>
      rw [List.takeWhile_cons_of_pos (by simp [hx])]
      cases k with
      | zero => simp [view, hx]
      | succ k =>
        have := ih tail.2 k (by simpa using hk)
        simpa [view] using this

theorem mergeSortedBy_sorted (order : WeakOrder (gt greater)) {xs ys : List P} {x : Nat}
    (first : xs.length = 2 ^ x) (short : ys.length ≤ xs.length)
    (second : ys.length = 0 ∨ ∃ y, ys.length = 2 ^ y)
    (hxs : xs.Pairwise fun a b => gt greater a b = false)
    (hys : ys.Pairwise fun a b => gt greater a b = false) :
    (mergeSortedBy (xs ++ ys) xs.length greater).Pairwise fun a b => gt greater a b = false := by
  have pos : 0 < 2 ^ x := Nat.two_pow_pos x
  unfold mergeSortedBy
  rw [List.length_append, Nat.add_sub_cancel_left]
  by_cases none : ys.length = 0
  · rw [if_pos (Or.inr none), List.length_eq_zero_iff.mp none, List.append_nil]
    exact hxs
  rw [if_neg (by omega)]
  apply order.sorted_of_views
  intro f up i j hij hj hi
  obtain ⟨a, ha, first_view⟩ := view_threshold hxs up
  obtain ⟨b, hb, second_view⟩ := view_threshold hys up
  have spec := @merge_spec x 0 xs.length ys.length 1 a b (view f (xs ++ ys)) Nat.one_pos (by omega) (by omega) second
    (by omega) hb
    (fun k hk => by
      rw [Nat.mul_one, Nat.zero_add, ← first_view k (by omega)]
      simp only [view, List.getElem?_append_left (show k < xs.length by omega)])
    (fun k hk => by
      rw [Nat.mul_one, ← second_view k hk]
      simp only [view, List.getElem?_append_right (Nat.le_add_right _ k), Nat.add_sub_cancel_left])
  have seen : ∀ k < xs.length + ys.length,
      view f (oddEvenMergeByRaw greater 0 1 xs.length xs.length 1 ys.length (xs ++ ys)) k =
        decide (a + b ≤ k) := fun k hk => by
    have place : concat 0 (2 ^ x) xs.length 1 k = k := by
      unfold concat
      split <;> omega
    have at_k := spec.ordered k (by omega)
    rw [place] at at_k
    rw [← at_k]
    conv_lhs => rw [show oddEvenMergeByRaw greater 0 1 xs.length xs.length 1 ys.length (xs ++ ys) =
      oddEvenMergeByRaw greater 0 1 (2 ^ x) xs.length 1 ys.length (xs ++ ys) by rw [first]]
    rw [oddEvenMergeByRaw_view order up Nat.one_pos (by omega) (by omega)]
  have total : (oddEvenMergeByRaw greater 0 1 xs.length xs.length 1 ys.length (xs ++ ys)).length =
      (xs ++ ys).length := (oddEvenMergeByRaw_perm 0 1 xs.length xs.length 1 ys.length (xs ++ ys)).length_eq
  rw [List.length_append] at total
  rw [seen _ (by omega)] at hi ⊢
  rw [decide_eq_true_eq] at hi ⊢
  omega

end Roga.Djbsort
