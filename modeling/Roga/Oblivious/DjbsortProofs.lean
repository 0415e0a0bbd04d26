import Roga.Oblivious.Djbsort
import Roga.Network.MergeExchange

/-! The djbsort loops visit the lower wires of every pass in ascending order and
give each its longest cascade, for any slot operations; the network is therefore
Batcher's merge exchange and sorts slices of every length. -/
namespace Roga.Djbsort
open Ct Network

section Visits
variable {p : Nat}

theorem lower_step (j : Nat) :
    lower p (j + 1) = if j / p % 2 = 0 then lower p j ++ [j] else lower p j := by
  simp only [lower, List.range_succ, List.filter_append]
  split <;> simp_all

theorem quotient_block (m : Nat) {k : Nat} (hk : k < p) : (2 * p * m + k) / p % 2 = 0 := by
  rw [show 2 * p * m + k = k + p * (2 * m) by ring]
  exact quotient_even hk m

theorem quotient_gap (m : Nat) {k : Nat} (hk : k < p) : (2 * p * m + p + k) / p % 2 = 1 := by
  rw [show 2 * p * m + p + k = k + p * (2 * m + 1) by ring, Nat.add_mul_div_left _ _ (by omega),
    Nat.div_eq_of_lt hk]
  omega

theorem lower_block (m : Nat) {k : Nat} (hk : k ≤ p) :
    lower p (2 * p * m + k) = lower p (2 * p * m) ++ (List.range k).map (2 * p * m + ·) := by
  induction k with
  | zero => simp
  | succ k ih =>
    rw [← Nat.add_assoc, lower_step, if_pos (quotient_block m (by omega)), ih (by omega),
      List.range_succ, List.map_append, List.append_assoc]
    rfl

theorem lower_gap (m : Nat) {k : Nat} (hk : k ≤ p) :
    lower p (2 * p * m + p + k) = lower p (2 * p * m + p) := by
  induction k with
  | zero => rfl
  | succ k ih =>
    rw [← Nat.add_assoc, lower_step, if_neg (by rw [quotient_gap m (by omega)]; decide), ih (by omega)]

/-- Every lower wire below `J` has its partner inside the slice. -/
def Inside (n p J : Nat) : Prop := ∀ j ∈ lower p J, j + p < n

/-- Whole blocks inside the slice keep their partners inside it. -/
theorem inside_blocks {n m : Nat} (hp : 0 < p) (fits : 2 * p * m ≤ n) : Inside n p (2 * p * m) := by
  intro j hj
  obtain ⟨below, even⟩ := List.mem_filter.mp hj
  have block : j / p < 2 * m := by
    rw [Nat.div_lt_iff_lt_mul hp]
    calc j < 2 * p * m := List.mem_range.mp below
      _ = 2 * m * p := by ring
  have last : (j / p + 2) * p ≤ 2 * m * p := Nat.mul_le_mul_right p (by
    have := of_decide_eq_true even
    omega)
  have split := Nat.lt_div_mul_add hp (a := j)
  have total : 2 * m * p = 2 * p * m := by ring
  rw [Nat.add_mul] at last
  omega

theorem inside_step {n m k : Nat} (hk : k < p) (inside : Inside n p (2 * p * m + k))
    (fits : 2 * p * m + k + p < n) : Inside n p (2 * p * m + k + 1) := by
  intro j hj
  rw [lower_step, if_pos (quotient_block m hk)] at hj
  rcases List.mem_append.mp hj with hj | hj
  · exact inside j hj
  · exact List.mem_singleton.mp hj ▸ fits

variable {σ : Type} (f : Nat → σ → σ) (s₀ : σ)

/-- The state after the lower wires below `J` have been visited. -/
def visited (p J : Nat) : σ := (lower p J).foldl (fun s j => f j s) s₀

theorem visited_step (m : Nat) {k : Nat} (hk : k < p) :
    f (2 * p * m + k) (visited f s₀ p (2 * p * m + k)) = visited f s₀ p (2 * p * m + k + 1) := by
  rw [visited, visited, lower_step, if_pos (quotient_block m hk), List.foldl_append]
  rfl

theorem visited_block (m : Nat) :
    (List.range p).foldl (fun s k => f (2 * p * m + k) s) (visited f s₀ p (2 * p * m)) =
      visited f s₀ p (2 * p * (m + 1)) := by
  have next : 2 * p * (m + 1) = 2 * p * m + p + p := by ring
  rw [next, visited, visited, lower_gap m le_rfl, lower_block m le_rfl, List.foldl_append,
    List.foldl_map]

theorem visited_gap (m : Nat) :
    visited f s₀ p (2 * p * m + p) = visited f s₀ p (2 * p * (m + 1)) := by
  have next : 2 * p * (m + 1) = 2 * p * m + p + p := by ring
  rw [next, visited, visited, lower_gap m le_rfl]

end Visits

section Loops
variable {σ : Type} (ops : SlotOps σ) {n p : Nat} (s₀ : σ)

theorem doubleTop_spec (n : Nat) : ∃ t, doubleTop n 1 = 2 ^ t ∧ n ≤ 2 * 2 ^ t := by
  have grow : ∀ d, ∃ t, doubleTop n (2 ^ d) = 2 ^ t ∧ n ≤ 2 * 2 ^ t := by
    intro d
    induction hk : n - 2 ^ d using Nat.strong_induction_on generalizing d with
    | _ k ih =>
      have pos := Nat.two_pow_pos d
      rw [doubleTop]
      split
      · obtain ⟨t, ht⟩ := ih (n - 2 ^ (d + 1)) (by rw [Nat.pow_succ]; omega) (d + 1) rfl
        exact ⟨t, by rw [← ht.1, Nat.pow_succ, Nat.mul_two], ht.2⟩
      · exact ⟨d, rfl, by omega⟩
  exact grow 0

/-- Each lower wire is compared with the wire `p` above. -/
def pairAll (p j : Nat) (s : σ) : σ := ops.minmax j (j + p) s

theorem minmaxBlocks_spec (hp : 0 < p) (m : Nat) (base : 2 * p * m ≤ n) :
    ∃ m', minmaxBlocks ops n p (2 * p * m) (visited (pairAll ops p) s₀ p (2 * p * m)) =
      (2 * p * m', visited (pairAll ops p) s₀ p (2 * p * m')) ∧ n < 2 * p * m' + 2 * p ∧ 2 * p * m' ≤ n := by
  induction hk : n - 2 * p * m using Nat.strong_induction_on generalizing m with
  | _ k ih =>
    rw [minmaxBlocks]
    split
    · rename_i fits
      have block := visited_block (p := p) (pairAll ops p) s₀ m
      have next : 2 * p * m + 2 * p = 2 * p * (m + 1) := by ring
      rw [show (List.range p).foldl (fun s k => ops.minmax (2 * p * m + k) (2 * p * m + k + p) s)
        (visited (pairAll ops p) s₀ p (2 * p * m)) = _ from block, next]
      exact ih _ (by omega) (m + 1) (by omega) rfl
    · exact ⟨m, rfl, by omega, base⟩

theorem minmaxTail_spec (m : Nat) {k : Nat} (hk : k ≤ p) (short : n < 2 * p * m + 2 * p)
    (inside : Inside n p (2 * p * m + k)) :
    ∃ J, minmaxTail ops n p (2 * p * m + k) (visited (pairAll ops p) s₀ p (2 * p * m + k)) =
      visited (pairAll ops p) s₀ p J ∧ n ≤ J + p ∧ Inside n p J := by
  induction hd : p - k using Nat.strong_induction_on generalizing k with
  | _ d ih =>
    rw [minmaxTail]
    split
    · rename_i fits
      rw [show ops.minmax (2 * p * m + k) (2 * p * m + k + p) (visited (pairAll ops p) s₀ p (2 * p * m + k)) =
        _ from visited_step (pairAll ops p) s₀ m (by omega : k < p)]
      exact ih (p - (k + 1)) (by omega) (by omega) (inside_step (by omega) inside fits) rfl
    · exact ⟨_, rfl, by omega, inside⟩

/-- A halving of `top` that is the first to fit is the one `reach` finds. -/
theorem reach_spec {j e E : Nat} (hp : 0 < p) (he : e ≤ E) (fits : j + p * 2 ^ e < n)
    (first : n ≤ j + 2 * (p * 2 ^ e)) : reach n j (p * 2 ^ E) = p * 2 ^ e := by
  obtain ⟨d, rfl⟩ := Nat.exists_eq_add_of_le he
  clear he
  induction d with
  | zero => rw [Nat.add_zero, reach, if_pos (Or.inr fits)]
  | succ d ih =>
    have double : p * 2 ^ (e + (d + 1)) = 2 * (p * 2 ^ (e + d)) := by
      rw [← Nat.add_assoc, Nat.pow_succ]; ring
    have large : p * 2 ^ e ≤ p * 2 ^ (e + d) :=
      Nat.mul_le_mul_left p (Nat.pow_le_pow_right (by decide) (by omega))
    have pos : 0 < p * 2 ^ e := Nat.mul_pos hp (Nat.two_pow_pos e)
    rw [reach, if_neg (by rw [double]; omega), double, Nat.mul_div_cancel_left _ (by decide), ih]

variable (E : Nat)

/-- Each lower wire runs its longest cascade. -/
def cascadeAll (n p E : Nat) (j : Nat) (s : σ) : σ := ops.cascade j p (reach n j (p * 2 ^ E)) s

theorem cascadeBlocks_spec {e : Nat} (hp : 0 < p) (he : e ≤ E) (m : Nat)
    (first : n ≤ 2 * p * m + 2 * (p * 2 ^ e)) (base : 2 * p * m ≤ n) :
    ∃ m', m ≤ m' ∧ 2 * p * m' ≤ n ∧ cascadeBlocks ops n p (2 * p * m) (p * 2 ^ e) (visited (cascadeAll ops n p E) s₀ p (2 * p * m)) =
      (2 * p * m', visited (cascadeAll ops n p E) s₀ p (2 * p * m')) ∧ n < 2 * p * m' + p + p * 2 ^ e := by
  induction hk : n - 2 * p * m using Nat.strong_induction_on generalizing m with
  | _ k ih =>
    rw [cascadeBlocks]
    split
    · rename_i fits
      have pos : 0 < p * 2 ^ e := Nat.mul_pos hp (Nat.two_pow_pos e)
      have next : 2 * p * m + 2 * p = 2 * p * (m + 1) := by ring
      have block := visited_block (p := p) (cascadeAll ops n p E) s₀ m
      have same : (List.range p).foldl (fun s k => ops.cascade (2 * p * m + k) p (p * 2 ^ e) s)
          (visited (cascadeAll ops n p E) s₀ p (2 * p * m)) = visited (cascadeAll ops n p E) s₀ p (2 * p * (m + 1)) := by
        rw [← block]
        refine List.foldl_ext _ _ _ fun s k hk => ?_
        have hk := List.mem_range.mp hk
        rw [show cascadeAll ops n p E (2 * p * m + k) s = ops.cascade (2 * p * m + k) p
          (reach n (2 * p * m + k) (p * 2 ^ E)) s from rfl, reach_spec hp he (by omega) (by omega)]
      rw [same, next]
      have wide : p ≤ p * 2 ^ e := Nat.le_mul_of_pos_right p (Nat.two_pow_pos e)
      obtain ⟨m', hm, inside, hrun, hend⟩ := ih _ (by omega) (m + 1) (by omega) (by omega) rfl
      exact ⟨m', by omega, inside, hrun, hend⟩
    · exact ⟨m, le_rfl, base, rfl, by omega⟩

theorem cascadeTail_spec {e : Nat} (hp : 0 < p) (he : e ≤ E) (m : Nat) {k : Nat} (hk : k ≤ p)
    (first : n ≤ 2 * p * m + k + 2 * (p * 2 ^ e)) (short : n < 2 * p * m + p + p * 2 ^ e)
    (inside : Inside n p (2 * p * m + k)) :
    ∃ k', k ≤ k' ∧ k' ≤ p ∧ (k' = k ∨ 2 * p * m + k' + p * 2 ^ e = n) ∧
      n ≤ 2 * p * m + k' + p * 2 ^ e ∧ Inside n p (2 * p * m + k') ∧
      cascadeTail ops n p (2 * p * m + k) (p * 2 ^ e) (visited (cascadeAll ops n p E) s₀ p (2 * p * m + k)) =
        (2 * p * m + k', visited (cascadeAll ops n p E) s₀ p (2 * p * m + k')) := by
  induction hd : p - k using Nat.strong_induction_on generalizing k with
  | _ d ih =>
    rw [cascadeTail]
    split
    · rename_i fits
      have step : ops.cascade (2 * p * m + k) p (p * 2 ^ e) (visited (cascadeAll ops n p E) s₀ p (2 * p * m + k)) =
          visited (cascadeAll ops n p E) s₀ p (2 * p * m + k + 1) := by
        rw [← visited_step (cascadeAll ops n p E) s₀ m (by omega : k < p)]
        simp only [cascadeAll, reach_spec hp he fits first]
      rw [step]
      have wide : p ≤ p * 2 ^ e := Nat.le_mul_of_pos_right p (Nat.two_pow_pos e)
      obtain ⟨k', h₁, h₂, h₃, h₄, h₅⟩ := ih (p - (k + 1)) (by omega) (by omega : k + 1 ≤ p) (by omega)
        (inside_step (by omega) inside (by omega)) rfl
      exact ⟨k', by omega, h₂, by omega, h₄, h₅⟩
    · exact ⟨k, le_rfl, hk, Or.inl rfl, by omega, inside, rfl⟩

/-- The open block is always finished inside the slice, and `q` stops at `p`:
the inner loop can neither spin nor run past the end of the block. -/
theorem finishBlock_spec {e : Nat} (hp : 0 < p) (he : e ≤ E) (m : Nat) {k : Nat} (hk₀ : 0 < k)
    (hk : k < p) (open_ : 2 * p * m + 2 * p ≤ n) (low : 2 * p * m + k + p * 2 ^ e ≤ n)
    (first : n ≤ 2 * p * m + k + 2 * (p * 2 ^ e)) :
    ∃ e', e' ≤ e ∧ n ≤ 2 * p * m + p + 2 * (p * 2 ^ e') ∧
      finishBlock ops n p (2 * p * m) (2 * p * m + k) (p * 2 ^ e)
        (visited (cascadeAll ops n p E) s₀ p (2 * p * m + k)) =
      (2 * p * (m + 1), 2 * p * m + p, p * 2 ^ e', visited (cascadeAll ops n p E) s₀ p (2 * p * (m + 1))) := by
  induction hd : (p - k) + e using Nat.strong_induction_on generalizing k e with
  | _ d ih =>
    have pos : 0 < p * 2 ^ e := Nat.mul_pos hp (Nat.two_pow_pos e)
    rw [finishBlock]
    split
    · rename_i at_end
      obtain ⟨e, rfl⟩ : ∃ e', e = e' + 1 := by
        refine ⟨e - 1, ?_⟩
        rcases Nat.eq_zero_or_pos e with rfl | h
        · simp only [Nat.pow_zero, Nat.mul_one] at at_end
          omega
        · omega
      have double : p * 2 ^ (e + 1) = 2 * (p * 2 ^ e) := by rw [Nat.pow_succ]; ring
      rw [if_neg (by omega), double, Nat.mul_div_cancel_left _ (by decide)]
      rw [double] at at_end low
      obtain ⟨e', h₁, h₂, h₃⟩ :=
        ih ((p - k) + e) (by omega) (by omega) hk₀ hk (by omega) (by omega) rfl
      exact ⟨e', by omega, h₂, h₃⟩
    · rename_i inside
      have step : ops.cascade (2 * p * m + k) p (p * 2 ^ e) (visited (cascadeAll ops n p E) s₀ p (2 * p * m + k)) =
          visited (cascadeAll ops n p E) s₀ p (2 * p * m + k + 1) := by
        rw [← visited_step (cascadeAll ops n p E) s₀ m hk]
        simp only [cascadeAll, reach_spec hp he (by omega) first]
      simp only [step]
      have next : 2 * p * (m + 1) = 2 * p * m + 2 * p := by ring
      by_cases last : k + 1 = p
      · rw [if_pos (by omega)]
        refine ⟨e, le_rfl, by omega, ?_⟩
        rw [← visited_gap, next, Nat.add_assoc, last]
      · rw [if_neg (by omega), if_pos (by omega)]
        obtain ⟨e', h₁, h₂, h₃⟩ := ih ((p - (k + 1)) + e) (by omega) he (by omega : 0 < k + 1)
          (by omega) (by omega) (by omega) rfl
        exact ⟨e', h₁, h₂, h₃⟩

theorem qLoop_spec {e : Nat} (hp : 0 < p) (he : e ≤ E) (m : Nat) {k : Nat} (hk : k < p ∨ k = 0)
    (first : n ≤ 2 * p * m + k + 2 * (p * 2 ^ e))
    (part : k ≠ 0 → 2 * p * m + k + 2 * (p * 2 ^ e) = n) (base : 2 * p * m ≤ n)
    (inside : Inside n p (2 * p * m + k)) :
    ∃ J, qLoop ops n p (2 * p * m) (2 * p * m + k) (p * 2 ^ e) (visited (cascadeAll ops n p E) s₀ p (2 * p * m + k)) =
      visited (cascadeAll ops n p E) s₀ p J ∧ n ≤ J + 2 * p ∧ Inside n p J := by
  induction e using Nat.strong_induction_on generalizing m k with
  | _ e ih =>
    -- one round of full blocks and tail at `q = p * 2^(e'+1)`, then the smaller ones
    have round : ∀ e' m, e' + 1 ≤ e → n ≤ 2 * p * m + 2 * (p * 2 ^ (e' + 1)) → 2 * p * m ≤ n →
        let blocks := cascadeBlocks ops n p (2 * p * m) (p * 2 ^ (e' + 1)) (visited (cascadeAll ops n p E) s₀ p (2 * p * m))
        let tail := cascadeTail ops n p blocks.1 (p * 2 ^ (e' + 1)) blocks.2
        ∃ J, qLoop ops n p blocks.1 tail.1 (p * 2 ^ (e' + 1) / 2) tail.2 = visited (cascadeAll ops n p E) s₀ p J ∧
          n ≤ J + 2 * p ∧ Inside n p J := by
      intro e' m hle hfirst base
      have double : p * 2 ^ (e' + 1) = 2 * (p * 2 ^ e') := by rw [Nat.pow_succ]; ring
      obtain ⟨m', hm, within, hblocks, hshort⟩ := cascadeBlocks_spec ops s₀ E hp (by omega) m hfirst base
      have grown : 2 * p * m ≤ 2 * p * m' := Nat.mul_le_mul_left _ hm
      obtain ⟨k', -, hk', hpart, hfit, inside', htail⟩ := cascadeTail_spec ops s₀ E hp (by omega : e' + 1 ≤ E) m'
        (Nat.zero_le p) (by omega) hshort (inside_blocks hp within)
      simp only [hblocks]
      rw [Nat.add_zero] at htail
      rw [htail]
      simp only
      rw [double, Nat.mul_div_cancel_left _ (by decide)]
      rw [double] at hfit hpart hshort
      exact ih e' (by omega) (by omega) m' (by omega) hfit (by omega) within inside'
    rw [qLoop]
    split
    · rename_i large
      obtain ⟨e, rfl⟩ : ∃ e', e = e' + 1 := by
        refine ⟨e - 1, ?_⟩
        rcases Nat.eq_zero_or_pos e with rfl | h
        · simp at large
        · omega
      have double : p * 2 ^ (e + 1) = 2 * (p * 2 ^ e) := by rw [Nat.pow_succ]; ring
      have pos : p ≤ p * 2 ^ e := Nat.le_mul_of_pos_right p (Nat.two_pow_pos e)
      split
      · rename_i partial_
        have hk₀ : k ≠ 0 := by omega
        have eq := part hk₀
        obtain ⟨e', hle, hfirst, hrun⟩ := finishBlock_spec ops s₀ E hp he m
          (Nat.pos_of_ne_zero hk₀) (by omega) (by omega) (by omega) first
        have next : 2 * p * (m + 1) = 2 * p * m + 2 * p := by ring
        rw [hrun]
        simp only
        split
        · rename_i small
          have := Nat.le_mul_of_pos_right p (Nat.two_pow_pos e')
          exact ⟨_, rfl, by omega, inside_blocks hp (by omega)⟩
        · rename_i bigger
          obtain ⟨e', rfl⟩ : ∃ e'', e' = e'' + 1 := by
            refine ⟨e' - 1, ?_⟩
            rcases Nat.eq_zero_or_pos e' with rfl | h
            · simp at bigger
            · omega
          exact round e' (m + 1) hle (by omega) (by omega)
      · rename_i whole
        have hk₀ : k = 0 := by omega
        subst hk₀
        simp only [Nat.add_zero] at first ⊢
        exact round e m le_rfl first base
    · rename_i small
      exact ⟨_, rfl, by omega, inside⟩

end Loops

theorem le_of_mem_descend {p q r : Nat} (hr : r ∈ descend p q) : r ≤ q := by
  induction q using Nat.strong_induction_on with
  | _ q ih =>
    rw [descend] at hr
    split at hr
    · rcases List.mem_cons.mp hr with rfl | hr
      · exact le_rfl
      · exact (ih (q / 2) (Nat.div_lt_self (by omega) (by decide)) hr).trans (Nat.div_le_self q 2)
    · simp at hr

section Passes
variable {σ τ : Type}

/-- All passes, with the last visited wire of each loop left open. -/
def runPasses (minmax : Nat → Nat → σ → σ) (cascade : Nat → Nat → Nat → σ → σ)
    (n top : Nat) (J₁ J₂ : Nat → Nat) (s : σ) : σ :=
  (descend 0 top).foldl (fun s p =>
    (lower p (J₂ p)).foldl (fun s j => cascade j p (reach n j top) s)
      ((lower p (J₁ p)).foldl (fun s j => minmax j (j + p) s) s)) s

theorem pLoop_spec (ops : SlotOps σ) {n t d : Nat} (hd : d ≤ t) (short : n ≤ 2 * 2 ^ t) (s : σ) :
    ∃ J₁ J₂ : Nat → Nat, (∀ e ≤ d, n ≤ J₁ (2 ^ e) + 2 ^ e) ∧ (∀ e ≤ d, n ≤ J₂ (2 ^ e) + 2 * 2 ^ e) ∧
      (∀ e ≤ d, Inside n (2 ^ e) (J₁ (2 ^ e)) ∧ Inside n (2 ^ e) (J₂ (2 ^ e))) ∧
      pLoop ops n (2 ^ t) (2 ^ d) s = (descend 0 (2 ^ d)).foldl (fun s p =>
        (lower p (J₂ p)).foldl (fun s j => ops.cascade j p (reach n j (2 ^ t)) s)
          ((lower p (J₁ p)).foldl (fun s j => ops.minmax j (j + p) s) s)) s := by
  have one : ∀ d ≤ t, ∀ s, ∃ J₁ J₂, n ≤ J₁ + 2 ^ d ∧ n ≤ J₂ + 2 * 2 ^ d ∧
      (Inside n (2 ^ d) J₁ ∧ Inside n (2 ^ d) J₂) ∧
      pLoop ops n (2 ^ t) (2 ^ d) s = pLoop ops n (2 ^ t) (2 ^ d / 2)
        ((lower (2 ^ d) J₂).foldl (fun s j => ops.cascade j (2 ^ d) (reach n j (2 ^ t)) s)
          ((lower (2 ^ d) J₁).foldl (fun s j => ops.minmax j (j + 2 ^ d) s) s)) := by
    intro d hd s
    have pos := Nat.two_pow_pos d
    obtain ⟨e, rfl⟩ := Nat.exists_eq_add_of_le hd
    have top : 2 ^ (d + e) = 2 ^ d * 2 ^ e := Nat.pow_add 2 d e
    obtain ⟨m, hblocks, hshort, within⟩ := minmaxBlocks_spec ops (n := n) s pos 0 (Nat.zero_le n)
    obtain ⟨J₁, htail, hJ₁, inside₁⟩ := minmaxTail_spec ops (n := n) s m (Nat.zero_le (2 ^ d)) hshort
      (inside_blocks pos within)
    generalize hs₁ : visited (pairAll ops (2 ^ d)) s (2 ^ d) J₁ = s₁ at htail
    obtain ⟨J₂, hq, hJ₂, inside₂⟩ := qLoop_spec ops (n := n) s₁ e pos (le_refl e) 0 (k := 0) (Or.inr rfl)
      (by rw [← top]; omega) (fun h => absurd rfl h) (Nat.zero_le n) (inside_blocks pos (Nat.zero_le n))
    refine ⟨J₁, J₂, hJ₁, hJ₂, ⟨inside₁, inside₂⟩, ?_⟩
    rw [pLoop, if_pos (by omega)]
    simp only [Nat.mul_zero, Nat.add_zero] at hblocks htail hq
    have start : ∀ {f : Nat → σ → σ} {s : σ}, visited f s (2 ^ d) 0 = s := rfl
    rw [start] at hblocks hq
    simp only [hblocks, htail, top, hq]
    rw [← hs₁]
    rfl
  induction d generalizing s with
  | zero =>
    obtain ⟨j₁, j₂, h₁, h₂, inside, hrun⟩ := one 0 hd s
    refine ⟨fun _ => j₁, fun _ => j₂, ?_, ?_, ?_, ?_⟩
    · intro e he
      obtain rfl : e = 0 := by omega
      exact h₁
    · intro e he
      obtain rfl : e = 0 := by omega
      exact h₂
    · intro e he
      obtain rfl : e = 0 := by omega
      exact inside
    · rw [hrun, pLoop, if_neg (by decide), descend, if_pos (by decide), descend_of_le (by decide)]
      rfl
  | succ d ih =>
    obtain ⟨j₁, j₂, h₁, h₂, inside, hrun⟩ := one (d + 1) hd s
    have half : 2 ^ (d + 1) / 2 = 2 ^ d := by rw [Nat.pow_succ]; omega
    rw [half] at hrun
    obtain ⟨J₁, J₂, H₁, H₂, Inside₀, Hrun⟩ := ih (by omega) ((lower (2 ^ (d + 1)) j₂).foldl
      (fun s j => ops.cascade j (2 ^ (d + 1)) (reach n j (2 ^ t)) s)
      ((lower (2 ^ (d + 1)) j₁).foldl (fun s j => ops.minmax j (j + 2 ^ (d + 1)) s) s))
    have differ : ∀ e ≤ d, 2 ^ e ≠ 2 ^ (d + 1) := fun e he =>
      (Nat.pow_lt_pow_right (by decide) (by omega)).ne
    refine ⟨Function.update J₁ (2 ^ (d + 1)) j₁, Function.update J₂ (2 ^ (d + 1)) j₂, ?_, ?_, ?_, ?_⟩
    · intro e he
      rcases Nat.le_or_eq_of_le_succ he with he | rfl
      · rw [Function.update_of_ne (differ e he)]
        exact H₁ e he
      · rw [Function.update_self]
        exact h₁
    · intro e he
      rcases Nat.le_or_eq_of_le_succ he with he | rfl
      · rw [Function.update_of_ne (differ e he)]
        exact H₂ e he
      · rw [Function.update_self]
        exact h₂
    · intro e he
      rcases Nat.le_or_eq_of_le_succ he with he | rfl
      · rw [Function.update_of_ne (differ e he), Function.update_of_ne (differ e he)]
        exact Inside₀ e he
      · rw [Function.update_self, Function.update_self]
        exact inside
    · rw [hrun, Hrun]
      conv_rhs => rw [descend, if_pos (Nat.two_pow_pos _), half, List.foldl_cons,
        Function.update_self, Function.update_self]
      refine (List.foldl_ext _ _ _ fun s p hp => ?_).symm
      have ne : p ≠ 2 ^ (d + 1) := by
        have small := Nat.pow_lt_pow_right (a := 2) (by decide) (Nat.lt_succ_self d)
        have := le_of_mem_descend hp
        omega
      rw [Function.update_of_ne ne, Function.update_of_ne ne]

theorem mem_descend_zero {t p : Nat} (h : p ∈ descend 0 (2 ^ t)) : ∃ e ≤ t, p = 2 ^ e := by
  induction t with
  | zero =>
    rw [descend, if_pos (by decide), descend_of_le (by decide)] at h
    exact ⟨0, le_rfl, by simpa using h⟩
  | succ t ih =>
    rw [descend, if_pos (Nat.two_pow_pos _), show 2 ^ (t + 1) / 2 = 2 ^ t by
      rw [Nat.pow_succ]; omega] at h
    rcases List.mem_cons.mp h with rfl | h
    · exact ⟨t + 1, le_rfl, rfl⟩
    · obtain ⟨e, he, rfl⟩ := ih h
      exact ⟨e, by omega, rfl⟩

theorem not_mem_descend (p q : Nat) : p ∉ descend p q := by
  induction q using Nat.strong_induction_on with
  | _ q ih =>
    rw [descend]
    split
    · rename_i h
      rw [List.mem_cons, not_or]
      exact ⟨by omega, ih (q / 2) (Nat.div_lt_self (by omega) (by decide))⟩
    · simp

/-- The loops end, never spin, and run the passes of merge exchange. -/
theorem network_spec (ops : SlotOps σ) {n : Nat} (hn : 2 ≤ n) (s : σ) :
    ∃ t J₁ J₂, n ≤ 2 * 2 ^ t ∧ (∀ e ≤ t, n ≤ J₁ (2 ^ e) + 2 ^ e) ∧
      (∀ e ≤ t, n ≤ J₂ (2 ^ e) + 2 * 2 ^ e) ∧
      (∀ e ≤ t, Inside n (2 ^ e) (J₁ (2 ^ e)) ∧ Inside n (2 ^ e) (J₂ (2 ^ e))) ∧
      network ops n s = runPasses ops.minmax ops.cascade n (2 ^ t) J₁ J₂ s := by
  obtain ⟨t, htop, short⟩ := doubleTop_spec n
  obtain ⟨J₁, J₂, h₁, h₂, inside, hrun⟩ := pLoop_spec ops (le_refl t) short s
  refine ⟨t, J₁, J₂, short, h₁, h₂, inside, ?_⟩
  rw [network, if_neg (by omega), htop]
  exact hrun

/-- Runs over related states stay related when every slot operation does. -/
theorem runPasses_rel {R : σ → τ → Prop} {mm : Nat → Nat → σ → σ} {m : Nat → Nat → τ → τ}
    {cc : Nat → Nat → Nat → σ → σ} {c : Nat → Nat → Nat → τ → τ}
    (hmm : ∀ i j, i < j → ∀ s t, R s t → R (mm i j s) (m i j t))
    (hcc : ∀ j p q s t, R s t → R (cc j p q s) (c j p q t))
    {n top : Nat} {J₁ J₂ : Nat → Nat} {s : σ} {t : τ} (h : R s t) :
    R (runPasses mm cc n top J₁ J₂ s) (runPasses m c n top J₁ J₂ t) := by
  refine List.foldl_rel h fun p hp s t h => ?_
  have pos : 0 < p := Nat.pos_of_ne_zero fun h => not_mem_descend 0 top (h ▸ hp)
  exact List.foldl_rel (List.foldl_rel h fun j _ s t => hmm j (j + p) (by omega) s t)
    fun j _ s t => hcc j p _ s t

theorem runPasses_keep {Q : σ → Prop} {mm : Nat → Nat → σ → σ} {cc : Nat → Nat → Nat → σ → σ}
    (hmm : ∀ i j s, Q s → Q (mm i j s)) (hcc : ∀ j p q s, Q s → Q (cc j p q s))
    {n top : Nat} {J₁ J₂ : Nat → Nat} {s : σ} (h : Q s) : Q (runPasses mm cc n top J₁ J₂ s) :=
  runPasses_rel (R := fun s (_ : Unit) => Q s) (m := fun _ _ t => t) (c := fun _ _ _ t => t)
    (fun i j _ s _ h => hmm i j s h) (fun j p q s _ h => hcc j p q s h) (t := ()) h

/-- Visiting wires that no longer act changes nothing. -/
theorem visited_past {f : Nat → Wires → Wires} {n T J p : Nat} {w : Wires} (padded : Padded n w)
    (keep : ∀ j v, Padded n v → Padded n (f j v)) (past : ∀ j v, T ≤ j → Padded n v → f j v = v)
    (h : T ≤ J) : visited f w p J = visited f w p T := by
  obtain ⟨d, rfl⟩ := Nat.exists_eq_add_of_le h
  clear h
  induction d with
  | zero => rfl
  | succ d ih =>
    rw [← ih, ← Nat.add_assoc, visited, lower_step]
    split
    · rw [List.foldl_append]
      exact past _ _ (by omega) (foldl_padded keep _ padded)
    · rfl

theorem pairs_visited {n p J : Nat} {w : Wires} (hp : 0 < p) (padded : Padded n w)
    (h : n ≤ J + p) :
    (lower p J).foldl (fun w j => exchange j (j + p) w) w =
      (lower p n).foldl (fun w j => exchange j (j + p) w) w := by
  have upto : ∀ J, n - p ≤ J → visited (fun j w => exchange j (j + p) w) w p J =
      visited (fun j w => exchange j (j + p) w) w p (n - p) := fun J hJ =>
    visited_past padded (fun _ _ => exchange_padded (by omega))
      (fun _ _ hj => exchange_past (by omega)) hJ
  exact (upto J (by omega)).trans (upto n (by omega)).symm

theorem cascades_visited {n p d J : Nat} {w : Wires} (hp : 0 < p) (padded : Padded n w)
    (h : n ≤ J + 2 * p) :
    (lower p J).foldl (fun w j => cascade j p (reach n j (p * 2 ^ d)) w) w =
      (lower p n).foldl (fun w j => cascade j p (p * 2 ^ d) w) w := by
  have longest : (lower p J).foldl (fun w j => cascade j p (reach n j (p * 2 ^ d)) w) w =
      (lower p J).foldl (fun w j => cascade j p (p * 2 ^ d) w) w := by
    refine (List.foldl_rel (r := fun v v' => v = v' ∧ Padded n v) ⟨rfl, padded⟩ ?_).1
    rintro j - v _ ⟨rfl, hv⟩
    exact ⟨cascade_reach hv, cascade_padded hv⟩
  have upto : ∀ J, n - 2 * p ≤ J → visited (fun j w => cascade j p (p * 2 ^ d) w) w p J =
      visited (fun j w => cascade j p (p * 2 ^ d) w) w p (n - 2 * p) := fun J hJ =>
    visited_past padded (fun _ _ => cascade_padded) (fun _ _ hj => cascade_past hp (by omega)) hJ
  exact longest.trans ((upto J (by omega)).trans (upto n (by omega)).symm)

theorem runPasses_wires {n t : Nat} {J₁ J₂ : Nat → Nat} {w : Wires} (padded : Padded n w)
    (h₁ : ∀ e ≤ t, n ≤ J₁ (2 ^ e) + 2 ^ e) (h₂ : ∀ e ≤ t, n ≤ J₂ (2 ^ e) + 2 * 2 ^ e) :
    runPasses exchange cascade n (2 ^ t) J₁ J₂ w =
      (descend 0 (2 ^ t)).foldl (fun w p => pass n (2 ^ t) p w) w := by
  refine (List.foldl_rel (r := fun v v' => v = v' ∧ Padded n v) ⟨rfl, padded⟩ ?_).1
  rintro p hp v _ ⟨rfl, hv⟩
  obtain ⟨e, he, rfl⟩ := mem_descend_zero hp
  have pos := Nat.two_pow_pos e
  have same := h₂ e he
  obtain ⟨d, rfl⟩ := Nat.exists_eq_add_of_le he
  rw [Nat.pow_add, pairs_visited pos hv (h₁ e he), cascades_visited pos (foldl_padded
    (f := fun j => exchange j (j + 2 ^ e)) (fun _ _ => exchange_padded (by omega)) _ hv) same]
  exact ⟨rfl, pass_padded pos hv⟩

end Passes

section Slices
variable {P : Type} {greater : P → P → UInt8}

/-- The comparator byte as a test. -/
def gt (greater : P → P → UInt8) (a b : P) : Bool := greater a b != 0

theorem minmaxByRaw_eq (i j : Nat) (xs : List P) :
    minmaxByRaw greater i j xs = match xs[i]?, xs[j]? with
      | some a, some b => if gt greater a b then (xs.set i b).set j a else xs
      | _, _ => xs := by
  unfold minmaxByRaw cswapFast gt
  cases hi : xs[i]? <;> cases hj : xs[j]? <;> rfl

theorem minmaxByRaw_perm (i j : Nat) (xs : List P) : (minmaxByRaw greater i j xs).Perm xs := by
  rw [minmaxByRaw_eq]
  exact swap_perm xs i j

theorem minmaxByRaw_view (order : WeakOrder (gt greater)) {f : P → Bool}
    (up : Upward (gt greater) f) {i j : Nat} (hij : i < j) (xs : List P) :
    view f (minmaxByRaw greater i j xs) = exchange i j (view f xs) := by
  rw [minmaxByRaw_eq]
  exact order.view_swap up hij

/-- Keeping the lower wire in a register is the sequence of exchanges. -/
theorem cascadeByLoop_eq (j p q : Nat) (a : P) (xs : List P) (h : j + p < xs.length) :
    (cascadeByLoop greater j p q a xs).2.set (j + p) (cascadeByLoop greater j p q a xs).1 =
      (descend p q).foldl (fun xs r => minmaxByRaw greater (j + p) (j + r) xs)
        (xs.set (j + p) a) := by
  fun_induction cascadeByLoop greater j p q a xs with
  | case1 q a xs hq b hb hgt ih =>
    obtain ⟨hlt, rfl⟩ := List.getElem?_eq_some_iff.mp hb
    rw [descend, if_pos hq, List.foldl_cons, ih (by simpa using h)]
    congr 1
    rw [minmaxByRaw_eq]
    have other : (xs.set (j + p) a)[j + q]? = some xs[j + q] := by
      rw [List.getElem?_set_ne (by omega), List.getElem?_eq_getElem hlt]
    rw [List.getElem?_set_self h, other]
    simp only [gt, hgt, if_true, List.set_set]
    exact List.set_comm _ _ (by omega)
  | case2 q a xs hq b hb hgt ih =>
    obtain ⟨hlt, rfl⟩ := List.getElem?_eq_some_iff.mp hb
    rw [descend, if_pos hq, List.foldl_cons, ih h]
    congr 1
    rw [minmaxByRaw_eq]
    have other : (xs.set (j + p) a)[j + q]? = some xs[j + q] := by
      rw [List.getElem?_set_ne (by omega), List.getElem?_eq_getElem hlt]
    rw [List.getElem?_set_self h, other]
    simp [gt, hgt]
  | case3 q a xs hq hb ih =>
    rw [descend, if_pos hq, List.foldl_cons, ih h]
    congr 1
    rw [minmaxByRaw_eq]
    have other : (xs.set (j + p) a)[j + q]? = none := by
      rw [List.getElem?_set_ne (by omega), hb]
    rw [List.getElem?_set_self h, other]
  | case4 q a xs hq => rw [descend, if_neg hq]; rfl

theorem cascadeByRaw_eq (j p q : Nat) (xs : List P) :
    cascadeByRaw greater j p q xs =
      (descend p q).foldl (fun xs r => minmaxByRaw greater (j + p) (j + r) xs) xs := by
  unfold cascadeByRaw
  cases ha : xs[j + p]? with
  | some a =>
    obtain ⟨hlt, rfl⟩ := List.getElem?_eq_some_iff.mp ha
    have run : (cascadeByLoop greater j p q xs[j + p] xs).2.set (j + p)
        (cascadeByLoop greater j p q xs[j + p] xs).1 = _ := cascadeByLoop_eq j p q xs[j + p] xs hlt
    rwa [List.set_getElem_self] at run
  | none =>
    refine (List.foldlRecOn (motive := fun ys => ys = xs) _ _ rfl fun ys hys r _ => ?_).symm
    rw [hys, minmaxByRaw_eq, ha]

theorem mem_descend_gt {p q r : Nat} (h : r ∈ descend p q) : p < r := by
  induction q using Nat.strong_induction_on with
  | _ q ih =>
    rw [descend] at h
    split at h
    · rename_i hq
      rcases List.mem_cons.mp h with rfl | h
      · exact hq
      · exact ih (q / 2) (Nat.div_lt_self (by omega) (by decide)) h
    · simp at h

theorem cascadeByRaw_view (order : WeakOrder (gt greater)) {f : P → Bool}
    (up : Upward (gt greater) f) (j p q : Nat) (xs : List P) :
    view f (cascadeByRaw greater j p q xs) = cascade j p q (view f xs) := by
  rw [cascadeByRaw_eq]
  refine List.foldl_rel (r := fun xs w => view f xs = w) rfl fun r hr xs w h => ?_
  rw [minmaxByRaw_view order up (by have := mem_descend_gt hr; omega), h]

theorem cascadeByRaw_perm (j p q : Nat) (xs : List P) : (cascadeByRaw greater j p q xs).Perm xs := by
  rw [cascadeByRaw_eq]
  exact List.foldlRecOn (motive := fun ys => ys.Perm xs) _ _ (.refl _)
    fun ys hys r _ => (minmaxByRaw_perm _ _ ys).trans hys

/-- The passes sort every slice, whatever wires past the end they still visit. -/
theorem runPasses_sorted (order : WeakOrder (gt greater)) {xs : List P} {t : Nat}
    {J₁ J₂ : Nat → Nat} (short : xs.length ≤ 2 * 2 ^ t)
    (h₁ : ∀ e ≤ t, xs.length ≤ J₁ (2 ^ e) + 2 ^ e)
    (h₂ : ∀ e ≤ t, xs.length ≤ J₂ (2 ^ e) + 2 * 2 ^ e) :
    (runPasses (minmaxByRaw greater) (cascadeByRaw greater) xs.length (2 ^ t) J₁ J₂ xs).Pairwise
      fun a b => gt greater a b = false := by
  apply order.sorted_of_views
  intro f up i j hij _ hi
  have seen : view f (runPasses (minmaxByRaw greater) (cascadeByRaw greater) xs.length (2 ^ t)
      J₁ J₂ xs) = runPasses exchange cascade xs.length (2 ^ t) J₁ J₂ (view f xs) :=
    runPasses_rel (R := fun ys w => view f ys = w)
      (fun i j hij ys w h => by rw [minmaxByRaw_view order up hij, h])
      (fun j p q ys w h => by rw [cascadeByRaw_view order up, h]) rfl
  rw [seen, runPasses_wires (view_padded f xs) h₁ h₂] at hi ⊢
  have sorted := mergeExchange_sorted (view_padded f xs) short
  obtain ⟨d, rfl⟩ := Nat.exists_eq_add_of_le hij
  clear hij
  induction d with
  | zero => exact hi
  | succ d ih => exact sorted _ (ih (by omega))

theorem runPasses_perm (xs : List P) (n top : Nat) (J₁ J₂ : Nat → Nat) :
    (runPasses (minmaxByRaw greater) (cascadeByRaw greater) n top J₁ J₂ xs).Perm xs :=
  runPasses_keep (Q := fun ys : List P => ys.Perm xs) (fun _ _ _ h => (minmaxByRaw_perm _ _ _).trans h)
    (fun _ _ _ _ h => (cascadeByRaw_perm _ _ _ _).trans h) (.refl xs)

theorem sortBy_perm (xs : List P) (greater : P → P → UInt8) : (sortBy xs greater).Perm xs := by
  unfold sortBy
  by_cases hn : xs.length < 2
  · rw [network, if_pos hn]
  · obtain ⟨t, J₁, J₂, -, -, -, -, hrun⟩ := network_spec (byOps greater) (Nat.le_of_not_lt hn) xs
    rw [hrun]
    exact runPasses_perm xs _ _ _ _

theorem sortBy_sorted (order : WeakOrder (gt greater)) (xs : List P) :
    (sortBy xs greater).Pairwise fun a b => gt greater a b = false := by
  unfold sortBy
  by_cases hn : xs.length < 2
  · rw [network, if_pos hn]
    match xs, hn with
    | [], _ => exact .nil
    | [a], _ => exact List.pairwise_singleton _ _
  · obtain ⟨t, J₁, J₂, short, h₁, h₂, -, hrun⟩ :=
      network_spec (byOps greater) (Nat.le_of_not_lt hn) xs
    rw [hrun]
    exact runPasses_sorted order short h₁ h₂

end Slices

section WithPayload
variable {P : Type}

/-- The comparison `sort_with_payload` makes, on key-payload pairs. -/
def keyGreater (a b : UInt64 × P) : UInt8 := (decide (a.1 > b.1)).toUInt8

theorem keyGreater_order : WeakOrder (gt (keyGreater (P := P))) where
  asymm := by
    intro a b h
    simp only [gt, keyGreater, toUInt8_bne_zero, decide_eq_true_eq, decide_eq_false_iff_not,
      UInt64.lt_iff_toNat_lt] at *
    omega
  cotrans := by
    intro a b c h
    simp only [gt, keyGreater, toUInt8_bne_zero, decide_eq_true_eq, UInt64.lt_iff_toNat_lt] at *
    omega

/-- The pair of slices that holds the components of `xs`. -/
def split (xs : List (UInt64 × P)) : List UInt64 × List P := (xs.map Prod.fst, xs.map Prod.snd)

theorem minmaxWithPayloadRaw_split (i j : Nat) (xs : List (UInt64 × P)) :
    minmaxWithPayloadRaw i j (split xs) = split (minmaxByRaw keyGreater i j xs) := by
  rw [minmaxByRaw_eq]
  cases hi : xs[i]? with
  | none => simp [minmaxWithPayloadRaw, split, hi]
  | some a =>
    cases hj : xs[j]? with
    | none => simp [minmaxWithPayloadRaw, split, hi, hj]
    | some b =>
      simp only [minmaxWithPayloadRaw, split, cswapFast, List.getElem?_map, hi, hj, Option.map_some,
        gt, keyGreater, toUInt8_bne_zero, decide_eq_true_eq]
      split_ifs <;> simp

theorem cascadeWithPayloadLoop_split (j p q : Nat) (a : UInt64 × P) (xs : List (UInt64 × P)) :
    cascadeWithPayloadLoop j p q a.1 a.2 (split xs) =
      ((cascadeByLoop keyGreater j p q a xs).1.1, (cascadeByLoop keyGreater j p q a xs).1.2,
        split (cascadeByLoop keyGreater j p q a xs).2) := by
  fun_induction cascadeByLoop keyGreater j p q a xs with
  | case1 q a xs hq b hb hgt ih =>
    have swap : a.1 > b.1 := by simpa [keyGreater] using hgt
    rw [cascadeWithPayloadLoop, if_pos hq]
    simp only [split, List.getElem?_map, hb, Option.map_some, if_pos swap]
    simpa only [split, List.map_set] using ih
  | case2 q a xs hq b hb hgt ih =>
    have keep : ¬ a.1 > b.1 := by simpa [keyGreater] using hgt
    rw [cascadeWithPayloadLoop, if_pos hq]
    simp only [split, List.getElem?_map, hb, Option.map_some, if_neg keep]
    exact ih
  | case3 q a xs hq hb ih =>
    rw [cascadeWithPayloadLoop, if_pos hq]
    simp only [split, List.getElem?_map, hb, Option.map_none]
    exact ih
  | case4 q a xs hq => rw [cascadeWithPayloadLoop, if_neg hq]

theorem cascadeWithPayloadRaw_split (j p q : Nat) (xs : List (UInt64 × P)) :
    cascadeWithPayloadRaw j p q (split xs) = split (cascadeByRaw keyGreater j p q xs) := by
  unfold cascadeWithPayloadRaw cascadeByRaw
  cases ha : xs[j + p]? with
  | none => simp [split, ha]
  | some a =>
    have loop := cascadeWithPayloadLoop_split j p q a xs
    have keys : (split xs).1[j + p]? = some a.1 := by simp [split, ha]
    have pays : (split xs).2[j + p]? = some a.2 := by simp [split, ha]
    simp only [keys, pays, loop]
    simp [split]

theorem zip_split {keys : List UInt64} {payloads : List P} (len : keys.length = payloads.length) :
    split (keys.zip payloads) = (keys, payloads) := by
  simp only [split, Prod.mk.injEq]
  exact ⟨List.map_fst_zip len.le, List.map_snd_zip len.ge⟩

/-- `sort_with_payload` permutes the key-payload pairs and leaves the keys ascending. -/
theorem sortWithPayload_spec {keys : List UInt64} {payloads : List P}
    (len : keys.length = payloads.length) :
    ∃ xs : List (UInt64 × P), xs.Perm (keys.zip payloads) ∧ xs.Pairwise (fun a b => a.1 ≤ b.1) ∧
      sortWithPayload keys payloads = (xs.map Prod.fst, xs.map Prod.snd) := by
  have count : (keys.zip payloads).length = keys.length := by simp [len]
  unfold sortWithPayload
  by_cases hn : keys.length < 2
  · refine ⟨keys.zip payloads, .refl _, ?_, ?_⟩
    · generalize keys.zip payloads = xs at count
      match xs, count with
      | [], _ => exact .nil
      | [a], _ => exact List.pairwise_singleton _ _
      | _ :: _ :: _, h => simp only [List.length_cons] at h; omega
    · rw [network, if_pos hn]
      exact (zip_split len).symm
  · obtain ⟨t, J₁, J₂, short, h₁, h₂, -, hrun⟩ :=
      network_spec (withPayloadOps (P := P)) (Nat.le_of_not_lt hn) (keys, payloads)
    refine ⟨runPasses (minmaxByRaw keyGreater) (cascadeByRaw keyGreater) keys.length (2 ^ t) J₁ J₂
      (keys.zip payloads), runPasses_perm _ _ _ _ _, ?_, ?_⟩
    · rw [← count] at short h₁ h₂ ⊢
      refine (runPasses_sorted keyGreater_order short h₁ h₂).imp fun {a b} h => ?_
      simp only [gt, keyGreater, toUInt8_bne_zero, decide_eq_false_iff_not] at h
      exact UInt64.not_lt.mp h
    · rw [hrun]
      exact runPasses_rel (R := fun s xs => s = split xs)
        (fun i j _ s xs h => by rw [h]; exact minmaxWithPayloadRaw_split i j xs)
        (fun j p q s xs h => by rw [h]; exact cascadeWithPayloadRaw_split j p q xs)
        (zip_split len).symm

theorem minmaxByRaw_of_sorted {greater : P → P → UInt8} {xs : List P}
    (sorted : xs.Pairwise fun a b => gt greater a b = false) {i j : Nat} (hij : i < j) :
    minmaxByRaw greater i j xs = xs := by
  rw [minmaxByRaw_eq]
  by_cases hj : j < xs.length
  · have hi : i < xs.length := hij.trans hj
    have order := List.pairwise_iff_getElem.mp sorted i j hi hj hij
    rw [List.getElem?_eq_getElem hi, List.getElem?_eq_getElem hj]
    simp [order]
  · rw [List.getElem?_eq_none (Nat.le_of_not_lt hj)]
    cases xs[i]? <;> rfl

theorem cascadeByRaw_of_sorted {greater : P → P → UInt8} {xs : List P}
    (sorted : xs.Pairwise fun a b => gt greater a b = false) (j p q : Nat) : cascadeByRaw greater j p q xs = xs := by
  rw [cascadeByRaw_eq]
  refine List.foldlRecOn (motive := fun ys => ys = xs) _ _ rfl fun ys same r hr => ?_
  rw [same, minmaxByRaw_of_sorted sorted (Nat.add_lt_add_left (mem_descend_gt hr) j)]

/-- A slice whose keys ascend stays as it is: equal keys are never exchanged. -/
theorem sortWithPayload_of_sorted {keys : List UInt64} {payloads : List P} (len : keys.length = payloads.length)
    (sorted : keys.Pairwise (· ≤ ·)) : sortWithPayload keys payloads = (keys, payloads) := by
  unfold sortWithPayload
  by_cases hn : keys.length < 2
  · rw [network, if_pos hn]
  obtain ⟨t, J₁, J₂, -, -, -, -, hrun⟩ := network_spec (withPayloadOps (P := P)) (Nat.le_of_not_lt hn) (keys, payloads)
  have order : (keys.zip payloads).Pairwise fun a b => gt keyGreater a b = false := by
    have ascending : ((keys.zip payloads).map Prod.fst).Pairwise (· ≤ ·) := by
      rwa [List.map_fst_zip len.le]
    refine (List.pairwise_map.mp ascending).imp fun {a b} h => ?_
    simpa only [gt, keyGreater, toUInt8_bne_zero, decide_eq_false_iff_not] using UInt64.not_lt.mpr h
  have kept : runPasses (minmaxByRaw keyGreater) (cascadeByRaw keyGreater) keys.length (2 ^ t) J₁ J₂
      (keys.zip payloads) = keys.zip payloads :=
    runPasses_rel (R := fun xs (_ : Unit) => xs = keys.zip payloads) (m := fun _ _ u => u) (c := fun _ _ _ u => u)
      (fun i j hij xs _ h => by rw [h, minmaxByRaw_of_sorted order hij])
      (fun j p q xs _ h => by rw [h, cascadeByRaw_of_sorted order]) (t := ()) rfl
  rw [hrun, ← zip_split len]
  exact (runPasses_rel (R := fun s xs => s = split xs)
    (fun i j _ s xs h => by rw [h]; exact minmaxWithPayloadRaw_split i j xs)
    (fun j p q s xs h => by rw [h]; exact cascadeWithPayloadRaw_split j p q xs) rfl).trans (congrArg split kept)

end WithPayload
end Roga.Djbsort
