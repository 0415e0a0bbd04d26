import Mathlib.Algebra.Order.Field.Basic
import Mathlib.Algebra.Order.Ring.Basic
import Mathlib.Data.Finset.Density
import Mathlib.Data.Fintype.BigOperators
import Mathlib.Data.Fintype.Pi
import Mathlib.Data.Real.Basic
import Mathlib.Tactic

/-! Tapes of uniformly random words, and runs of low words on them. A low word put in
front of a run makes it longer by one, and no tape comes from too many others in this
way; so an event that survives the insertion cannot become much less likely. -/
namespace Roga.Literal

/-! One proof for each literal of the reals, which definitions of different modules then share. -/

scoped instance atLeastTwo_two : Nat.AtLeastTwo 2 := ⟨by decide⟩
scoped instance atLeastTwo_three : Nat.AtLeastTwo 3 := ⟨by decide⟩
scoped instance atLeastTwo_twelve : Nat.AtLeastTwo 12 := ⟨by decide⟩
scoped instance atLeastTwo_threeHundredSixty : Nat.AtLeastTwo 360 := ⟨by decide⟩

end Roga.Literal

namespace Roga.Tape
open Finset
variable {W : Type}

/-- The probability of an event when all outcomes are equally likely. -/
noncomputable def prob {Ω : Type} [Fintype Ω] (event : Ω → Prop) : ℝ := by
  classical exact ((univ.filter event).card : ℝ) / Fintype.card Ω

section Prob
variable {Ω : Type} [Fintype Ω] {p q r : Ω → Prop}

theorem prob_eq (p : Ω → Prop) [DecidablePred p] : prob p = ((univ.filter p).card : ℝ) / Fintype.card Ω := by
  rw [prob]
  congr

theorem prob_nonneg (p : Ω → Prop) : 0 ≤ prob p := div_nonneg (Nat.cast_nonneg _) (Nat.cast_nonneg _)

theorem prob_mono (sub : ∀ ω, p ω → q ω) : prob p ≤ prob q := by
  classical
  apply div_le_div_of_nonneg_right _ (Nat.cast_nonneg _)
  exact Nat.cast_le.mpr (card_le_card (monotone_filter_right _ fun ω _ => sub ω))

theorem prob_or_le (sub : ∀ ω, p ω → q ω ∨ r ω) : prob p ≤ prob q + prob r := by
  classical
  rw [prob, prob, prob, ← add_div]
  apply div_le_div_of_nonneg_right _ (Nat.cast_nonneg _)
  have covered : univ.filter p ⊆ univ.filter q ∪ univ.filter r := by
    intro ω hω
    rw [← filter_or, mem_filter]
    exact ⟨mem_univ ω, sub ω (mem_filter.mp hω).2⟩
  exact_mod_cast (card_le_card covered).trans (card_union_le _ _)

theorem prob_eq_zero (never : ∀ ω, ¬ p ω) : prob p = 0 := by
  classical
  rw [prob_eq, filter_false_of_mem fun ω _ => never ω, card_empty, Nat.cast_zero, zero_div]

/-- The union bound. -/
theorem prob_exists_le_sum {ι : Type} (indices : Finset ι) (events : ι → Ω → Prop) :
    prob (fun ω => ∃ i ∈ indices, events i ω) ≤ ∑ i ∈ indices, prob (events i) := by
  classical
  induction indices using Finset.induction_on with
  | empty =>
    rw [sum_empty]
    exact (prob_eq_zero fun ω ⟨i, hi, _⟩ => notMem_empty i hi).le
  | insert i indices fresh ih =>
    have split : prob (fun ω => ∃ j ∈ Insert.insert i indices, events j ω) ≤
        prob (events i) + prob fun ω => ∃ j ∈ indices, events j ω := by
      apply prob_or_le
      rintro ω ⟨j, hj, holds⟩
      rcases mem_insert.mp hj with rfl | hj
      · exact .inl holds
      · exact .inr ⟨j, hj, holds⟩
    rw [sum_insert fresh]
    linarith

theorem prob_exists_le {bound : ℝ} (events : Nat → Ω → Prop) (n : Nat) (each : ∀ i < n, prob (events i) ≤ bound) :
    prob (fun ω => ∃ i < n, events i ω) ≤ n * bound := by
  have union := prob_exists_le_sum (range n) events
  simp only [mem_range] at union
  calc prob (fun ω => ∃ i < n, events i ω) ≤ ∑ i ∈ range n, prob (events i) := union
    _ ≤ ∑ _i ∈ range n, bound := sum_le_sum fun i hi => each i (mem_range.mp hi)
    _ = n * bound := by rw [sum_const, card_range, nsmul_eq_mul]

/-- An event and the rest of another one. -/
theorem prob_and_not (p q : Ω → Prop) : prob (fun ω => p ω ∧ ¬ q ω) = prob p - prob fun ω => p ω ∧ q ω := by
  classical
  have split := card_filter_add_card_filter_not (s := univ.filter p) q
  rw [filter_filter, filter_filter] at split
  rw [prob_eq, prob_eq, prob_eq, ← sub_div, ← split]
  push_cast
  rw [add_sub_cancel_left]

theorem prob_true [Nonempty Ω] : prob (fun _ : Ω => True) = 1 := by
  classical
  have some : (Fintype.card Ω : ℝ) ≠ 0 := Nat.cast_ne_zero.mpr Fintype.card_ne_zero
  rw [prob_eq, filter_true, card_univ, div_self some]

/-- No set of outcomes is much likelier under one of two views of the tape than under the other. -/
def Indistinguishable {β : Type} (factor slack : ℝ) (view view' : Ω → β) : Prop :=
  ∀ O : Set β, prob (fun ω => view ω ∈ O) ≤ factor * prob (fun ω => view' ω ∈ O) + slack ∧
    prob (fun ω => view' ω ∈ O) ≤ factor * prob (fun ω => view ω ∈ O) + slack

section Indistinguishable
variable {β γ : Type} {factor slack : ℝ} {view view' : Ω → β}

/-- What is computed from a view tells no more than the view. -/
theorem Indistinguishable.map (f : β → γ) (close : Indistinguishable factor slack view view') :
    Indistinguishable factor slack (fun ω => f (view ω)) fun ω => f (view' ω) :=
  fun O => close (Set.preimage f O)

theorem Indistinguishable.mono {factor' slack' : ℝ} (close : Indistinguishable factor slack view view')
    (larger : factor ≤ factor') (looser : slack ≤ slack') : Indistinguishable factor' slack' view view' := by
  intro O
  obtain ⟨first, second⟩ := close O
  have enlarge : ∀ p : Ω → Prop, factor * prob p + slack ≤ factor' * prob p + slack' := fun p =>
    add_le_add (mul_le_mul_of_nonneg_right larger (prob_nonneg p)) looser
  exact ⟨first.trans (enlarge _), second.trans (enlarge _)⟩

theorem Indistinguishable.symm (close : Indistinguishable factor slack view view') :
    Indistinguishable factor slack view' view := fun O => (close O).symm

/-- Two steps of this kind. -/
theorem Indistinguishable.trans {view'' : Ω → β} {factor' : ℝ} (close : Indistinguishable factor slack view view')
    (close' : Indistinguishable factor' slack view' view'') (pos : 0 ≤ factor) (pos' : 0 ≤ factor') (some : 0 ≤ slack) :
    Indistinguishable (factor * factor') ((1 + max factor factor') * slack) view view'' := by
  intro O
  obtain ⟨first, first'⟩ := close O
  obtain ⟨second, second'⟩ := close' O
  have there : factor * (factor' * prob (fun ω => view'' ω ∈ O) + slack) ≤
      factor * factor' * prob (fun ω => view'' ω ∈ O) + max factor factor' * slack := by
    rw [mul_add, mul_assoc]
    exact add_le_add_right (mul_le_mul_of_nonneg_right (le_max_left _ _) some) _
  have back : factor' * (factor * prob (fun ω => view ω ∈ O) + slack) ≤
      factor * factor' * prob (fun ω => view ω ∈ O) + max factor factor' * slack := by
    rw [mul_add, mul_comm factor factor', mul_assoc]
    exact add_le_add_right (mul_le_mul_of_nonneg_right (le_max_right _ _) some) _
  constructor
  · calc prob (fun ω => view ω ∈ O) ≤ factor * prob (fun ω => view' ω ∈ O) + slack := first
      _ ≤ factor * (factor' * prob (fun ω => view'' ω ∈ O) + slack) + slack :=
        add_le_add_left (mul_le_mul_of_nonneg_left second pos) _
      _ ≤ _ := by linarith
  · calc prob (fun ω => view'' ω ∈ O) ≤ factor' * prob (fun ω => view' ω ∈ O) + slack := second'
      _ ≤ factor' * (factor * prob (fun ω => view ω ∈ O) + slack) + slack :=
        add_le_add_left (mul_le_mul_of_nonneg_left first' pos') _
      _ ≤ _ := by linarith

end Indistinguishable
end Prob

section Run
variable (below : W → Bool)

/-- The number of low words in a row from `start` on, among `n` words. -/
def run (words : Nat → W) (start n : Nat) : Nat :=
  (((List.range n).map fun i => words (start + i)).takeWhile below).length

theorem run_succ (words : Nat → W) (start n : Nat) :
    run below words start (n + 1) = if below (words start) then run below words (start + 1) n + 1 else 0 := by
  have shift : ((fun i => words (start + i)) ∘ Nat.succ) = fun i => words (start + 1 + i) := by
    funext i
    exact congrArg words (by simp only [Nat.succ_eq_add_one]; omega)
  rw [run, List.range_succ_eq_map, List.map_cons, List.map_map, shift, List.takeWhile_cons, Nat.add_zero]
  split
  · rfl
  · rfl

/-- A run reaches `k` when the first `k` words are low. -/
theorem le_run {words : Nat → W} {start n k : Nat} :
    k ≤ run below words start n ↔ k ≤ n ∧ ∀ i < k, below (words (start + i)) = true := by
  induction n generalizing start k with
  | zero =>
    constructor
    · intro hk
      obtain rfl : k = 0 := Nat.le_zero.mp hk
      exact ⟨Nat.le_refl 0, fun i hi => absurd hi (Nat.not_lt_zero i)⟩
    · exact fun h => h.1
  | succ n ih =>
    rw [run_succ]
    cases k with
    | zero => simp
    | succ k =>
      by_cases low : below (words start) = true
      · rw [if_pos low, Nat.succ_le_succ_iff, ih, Nat.succ_le_succ_iff]
        refine and_congr_right fun _ => ⟨fun rest i hi => ?_, fun all i hi => ?_⟩
        · cases i with
          | zero => exact low
          | succ i =>
            have here := rest i (Nat.lt_of_succ_lt_succ hi)
            rwa [Nat.add_right_comm] at here
        · have here := all (i + 1) (Nat.succ_lt_succ hi)
          rwa [← Nat.add_assoc, Nat.add_right_comm] at here
      · rw [if_neg low]
        constructor
        · exact fun hk => absurd hk (Nat.not_succ_le_zero k)
        · exact fun h => absurd (h.2 0 (Nat.succ_pos k)) low

theorem run_le (words : Nat → W) (start n : Nat) : run below words start n ≤ n :=
  ((le_run below).mp (Nat.le_refl (run below words start n))).1

theorem run_congr {words words' : Nat → W} {start n : Nat} (same : ∀ i < n, words' (start + i) = words (start + i)) :
    run below words' start n = run below words start n := by
  have lists : ((List.range n).map fun i => words' (start + i)) = (List.range n).map fun i => words (start + i) :=
    List.map_congr_left fun i hi => same i (List.mem_range.mp hi)
  rw [run, run, lists]

end Run

section Insert
variable {M : Nat}

/-- A tape as a stream. -/
def stream [Inhabited W] (tape : Fin M → W) (i : Nat) : W := if h : i < M then tape ⟨i, h⟩ else default

/-- `word` goes in front of the `n` words from `start` on, the last of which drops out. -/
def insert (start n : Nat) (word : W) (tape : Fin M → W) (i : Fin M) : W :=
  if i.1 = start then word
  else if start < i.1 ∧ i.1 < start + n then tape ⟨i.1 - 1, (Nat.sub_le _ _).trans_lt i.2⟩
  else tape i

variable {start n : Nat} {word : W} {tape : Fin M → W}

theorem stream_insert_here [Inhabited W] (inside : start < M) : stream (insert start n word tape) start = word := by
  rw [stream, dif_pos inside, insert, if_pos rfl]

theorem stream_insert_later [Inhabited W] (inside : start + n ≤ M) {i : Nat} (hi : i + 1 < n) :
    stream (insert start n word tape) (start + (i + 1)) = stream tape (start + i) := by
  have outer : start + (i + 1) < M := by omega
  have inner : start + i < M := by omega
  rw [stream, dif_pos outer, insert, if_neg (show start + (i + 1) ≠ start by omega),
    if_pos (show start < start + (i + 1) ∧ start + (i + 1) < start + n by omega), stream, dif_pos inner]
  rfl

theorem stream_insert_outside [Inhabited W] (pos : 0 < n) {i : Nat} (outside : i < start ∨ start + n ≤ i) :
    stream (insert start n word tape) i = stream tape i := by
  rw [stream, stream]
  split
  · rw [insert, if_neg (show i ≠ start by omega), if_neg (show ¬ (start < i ∧ i < start + n) by omega)]
  · rfl

variable {below : W → Bool}

/-- A low word makes the run longer by one, up to its cap. -/
theorem run_insert [Inhabited W] (pos : 0 < n) (inside : start + n ≤ M) (low : below word = true) :
    run below (stream (insert start n word tape)) start n = min (run below (stream tape) start n + 1) n := by
  apply eq_of_forall_le_iff
  intro k
  rw [le_min_iff, le_run]
  cases k with
  | zero => simp
  | succ k =>
    rw [Nat.succ_le_succ_iff, le_run, and_comm]
    have here : stream (insert start n word tape) start = word := stream_insert_here (by omega)
    constructor
    · rintro ⟨all, short⟩
      refine ⟨⟨by omega, fun i hi => ?_⟩, short⟩
      have next := all (i + 1) (Nat.succ_lt_succ hi)
      rwa [stream_insert_later inside (by omega)] at next
    · rintro ⟨⟨-, all⟩, short⟩
      refine ⟨fun i hi => ?_, short⟩
      cases i with
      | zero => rwa [Nat.add_zero, here]
      | succ i =>
        rw [stream_insert_later inside (by omega)]
        exact all i (Nat.lt_of_succ_lt_succ hi)

/-- Other blocks of words stay as they are. -/
theorem run_insert_other [Inhabited W] (pos : 0 < n) {start' n' : Nat}
    (apart : start' + n' ≤ start ∨ start + n ≤ start') :
    run below (stream (insert start n word tape)) start' n' = run below (stream tape) start' n' := by
  apply run_congr
  intro i hi
  exact stream_insert_outside pos (by omega)

end Insert

section Count
variable {M : Nat} [Fintype W] {below : W → Bool} {start n : Nat}

/-- How many words are low. -/
def lowWords (below : W → Bool) : Finset W := univ.filter fun word => below word = true

theorem mem_lowWords {word : W} : word ∈ lowWords below ↔ below word = true :=
  mem_filter.trans (and_iff_right (mem_univ word))

omit [Fintype W] in
/-- Inserting a word forgets one word at most. -/
theorem insert_injective [Inhabited W] (pos : 0 < n) (inside : start + n ≤ M) {word word' : W} {tape tape' : Fin M → W}
    (same : insert start n word tape = insert start n word' tape')
    (last : stream tape (start + (n - 1)) = stream tape' (start + (n - 1))) : word = word' ∧ tape = tape' := by
  have streams : ∀ i, stream (insert start n word tape) i = stream (insert start n word' tape') i :=
    fun i => by rw [same]
  constructor
  · have here := streams start
    rwa [stream_insert_here (by omega), stream_insert_here (by omega)] at here
  · funext ⟨i, hi⟩
    have at_ : stream tape i = stream tape' i := by
      by_cases outside : i < start ∨ start + n ≤ i
      · have here := streams i
        rwa [stream_insert_outside pos outside, stream_insert_outside pos outside] at here
      · obtain ⟨j, rfl⟩ := Nat.exists_eq_add_of_le (show start ≤ i by omega)
        by_cases final : j = n - 1
        · exact final ▸ last
        · have here := streams (start + (j + 1))
          rwa [stream_insert_later inside (by omega), stream_insert_later inside (by omega)] at here
    rwa [stream, stream, dif_pos hi, dif_pos hi] at at_

theorem card_insert_le [Inhabited W] (pos : 0 < n) (inside : start + n ≤ M) {E E' : Finset (Fin M → W)}
    (maps : ∀ tape ∈ E, ∀ word, below word = true → insert start n word tape ∈ E') :
    (lowWords below).card * E.card ≤ Fintype.card W * E'.card := by
  classical
  let grow : W × (Fin M → W) → Fin M → W := fun x => insert start n x.1 x.2
  have fibre : ∀ tape' ∈ (lowWords below ×ˢ E).image grow,
      ((lowWords below ×ˢ E).filter fun x => grow x = tape').card ≤ Fintype.card W := by
    intro tape' _
    rw [← card_univ]
    refine card_le_card_of_injOn (fun x => stream x.2 (start + (n - 1))) (fun _ _ => mem_univ _) ?_
    intro x hx y hy last
    have hx := (mem_filter.mp hx).2
    have hy := (mem_filter.mp hy).2
    obtain ⟨word, tape⟩ := insert_injective pos inside (hx.trans hy.symm) last
    exact Prod.ext word tape
  have image : (lowWords below ×ˢ E).image grow ⊆ E' := by
    intro tape' htape'
    obtain ⟨x, hx, rfl⟩ := mem_image.mp htape'
    obtain ⟨low, inE⟩ := mem_product.mp hx
    exact maps x.2 inE x.1 (mem_filter.mp low).2
  calc (lowWords below).card * E.card = (lowWords below ×ˢ E).card := (card_product _ _).symm
    _ ≤ Fintype.card W * ((lowWords below ×ˢ E).image grow).card := card_le_mul_card_image _ _ fibre
    _ ≤ Fintype.card W * E'.card := Nat.mul_le_mul_left _ (card_le_card image)

/-- A low word has been inserted at each of the positions in turn. -/
def Lengthened (below : W → Bool) (n : Nat) : List Nat → (Fin M → W) → (Fin M → W) → Prop
  | [], tape, tape' => tape' = tape
  | start :: starts, tape, tape' =>
    ∃ word, below word = true ∧ Lengthened below n starts (insert start n word tape) tape'

theorem card_lengthened_le [Inhabited W] (pos : 0 < n) {starts : List Nat} (inside : ∀ s ∈ starts, s + n ≤ M)
    {E E' : Finset (Fin M → W)}
    (maps : ∀ tape ∈ E, ∀ tape', Lengthened below n starts tape tape' → tape' ∈ E') :
    (lowWords below).card ^ starts.length * E.card ≤ Fintype.card W ^ starts.length * E'.card := by
  classical
  induction starts generalizing E with
  | nil =>
    have sub : E ⊆ E' := fun tape htape => maps tape htape tape rfl
    simpa using card_le_card sub
  | cons start starts ih =>
    let middle : Finset (Fin M → W) :=
      univ.filter fun tape => ∀ tape', Lengthened below n starts tape tape' → tape' ∈ E'
    have first : (lowWords below).card * E.card ≤ Fintype.card W * middle.card := by
      refine card_insert_le pos (inside start (.head _)) fun tape htape word low => mem_filter.mpr ⟨mem_univ _, ?_⟩
      exact fun tape' later => maps tape htape tape' ⟨word, low, later⟩
    have rest := ih (fun s hs => inside s (.tail _ hs)) (E := middle) fun tape htape => (mem_filter.mp htape).2
    calc (lowWords below).card ^ (starts.length + 1) * E.card =
        (lowWords below).card ^ starts.length * ((lowWords below).card * E.card) := by ring
      _ ≤ (lowWords below).card ^ starts.length * (Fintype.card W * middle.card) := Nat.mul_le_mul_left _ first
      _ = Fintype.card W * ((lowWords below).card ^ starts.length * middle.card) := by ring
      _ ≤ Fintype.card W * (Fintype.card W ^ starts.length * E'.card) := Nat.mul_le_mul_left _ rest
      _ = Fintype.card W ^ (starts.length + 1) * E'.card := by ring

omit [Fintype W] in
/-- The runs of a lengthened tape, as long as none of them is cut off by its cap. -/
theorem Lengthened.run [Inhabited W] (pos : 0 < n) {starts : List Nat} {tape tape' : Fin M → W}
    (longer : Lengthened below n starts tape tape') (inside : ∀ s ∈ starts, s + n ≤ M) {start : Nat}
    (apart : ∀ s ∈ starts, s = start ∨ s + n ≤ start ∨ start + n ≤ s)
    (room : run below (stream tape) start n + starts.count start ≤ n) :
    run below (stream tape') start n = run below (stream tape) start n + starts.count start := by
  induction starts generalizing tape with
  | nil => rw [show tape' = tape from longer, List.count_nil, Nat.add_zero]
  | cons s starts ih =>
    obtain ⟨word, low, longer⟩ := longer
    have later := fun room => ih longer (fun s hs => inside s (.tail _ hs)) (fun s hs => apart s (.tail _ hs)) room
    by_cases here : s = start
    · subst here
      rw [List.count_cons_self] at room ⊢
      have one : Tape.run below (stream (insert s n word tape)) s n = min (Tape.run below (stream tape) s n + 1) n :=
        run_insert pos (inside s (.head _)) low
      rw [min_eq_left (by omega)] at one
      rw [one] at later
      rw [later (by omega)]
      omega
    · rw [List.count_cons_of_ne here] at room ⊢
      have other := (apart s (.head _)).resolve_left here
      have same : Tape.run below (stream (insert s n word tape)) start n = Tape.run below (stream tape) start n :=
        run_insert_other pos (by omega)
      rw [same] at later
      exact later room

omit [Fintype W] in
/-- A block that no insertion meets keeps its run. -/
theorem Lengthened.run_other [Inhabited W] (pos : 0 < n) {starts : List Nat} {tape tape' : Fin M → W}
    (longer : Lengthened below n starts tape tape') {start n' : Nat}
    (apart : ∀ s ∈ starts, s + n ≤ start ∨ start + n' ≤ s) :
    Tape.run below (stream tape') start n' = Tape.run below (stream tape) start n' := by
  induction starts generalizing tape with
  | nil => rw [show tape' = tape from longer]
  | cons s starts ih =>
    obtain ⟨word, low, longer⟩ := longer
    have same : Tape.run below (stream (insert s n word tape)) start n' = Tape.run below (stream tape) start n' := by
      have here := apart s (.head _)
      exact run_insert_other pos (by omega)
    exact (ih longer fun s hs => apart s (.tail _ hs)).trans same

/-- The probability that a word is low. -/
noncomputable def rate (below : W → Bool) : ℝ := (lowWords below).card / Fintype.card W

theorem rate_nonneg (below : W → Bool) : 0 ≤ rate below := div_nonneg (Nat.cast_nonneg _) (Nat.cast_nonneg _)

/-- The positions of a block of a tape. -/
def block (M start n : Nat) : Finset (Fin M) := univ.filter fun i => start ≤ i.1 ∧ i.1 < start + n

omit [Fintype W] in
theorem card_block (inside : start + n ≤ M) : (block M start n).card = n := by
  refine ((card_range n).symm.trans ?_).symm
  refine card_bij (fun j hj => ⟨start + j, by have := mem_range.mp hj; omega⟩) ?_ ?_ ?_
  · intro j hj
    have := mem_range.mp hj
    exact mem_filter.mpr ⟨mem_univ _, Nat.le_add_right _ _, Nat.add_lt_add_left this _⟩
  · intro i _ j _ same
    exact Nat.add_left_cancel (congrArg Fin.val same)
  · intro i hi
    obtain ⟨-, low, high⟩ := mem_filter.mp hi
    exact ⟨i.1 - start, mem_range.mpr (by omega), Fin.ext (Nat.add_sub_cancel' low)⟩

omit [Fintype W] in
/-- A run is long when the words of a block are low. -/
theorem le_run_iff [Inhabited W] {k : Nat} (hk : k ≤ n) (inside : start + n ≤ M) {tape : Fin M → W} :
    k ≤ Tape.run below (stream tape) start n ↔ ∀ i ∈ block M start k, below (tape i) = true := by
  rw [le_run]
  constructor
  · rintro ⟨-, all⟩ i hi
    obtain ⟨-, low, high⟩ := mem_filter.mp hi
    obtain ⟨j, same⟩ := Nat.exists_eq_add_of_le low
    have here := all j (by omega)
    rwa [← same, stream, dif_pos i.2] at here
  · intro all
    refine ⟨hk, fun i hi => ?_⟩
    rw [stream, dif_pos (show start + i < M by omega)]
    exact all ⟨start + i, by omega⟩ (mem_filter.mpr ⟨mem_univ _, Nat.le_add_right _ _, Nat.add_lt_add_left hi _⟩)

omit [Fintype W] in
/-- Distinct words are independent. -/
theorem prob_box [Fintype W] [Nonempty W] (boxes : Fin M → Finset W) :
    prob (fun tape : Fin M → W => ∀ i, tape i ∈ boxes i) = ∏ i, ((boxes i).card : ℝ) / Fintype.card W := by
  classical
  have boxed : (univ.filter fun tape : Fin M → W => ∀ i, tape i ∈ boxes i) = Fintype.piFinset boxes := by
    ext tape
    rw [mem_filter, Fintype.mem_piFinset]
    exact and_iff_right (mem_univ tape)
  rw [prob_eq, boxed, Fintype.card_piFinset, Fintype.card_fun, Fintype.card_fin, prod_div_distrib, prod_const, card_univ,
    Fintype.card_fin]
  push_cast
  rfl

/-- Low words at these positions. -/
theorem prob_low [Nonempty W] (positions : Finset (Fin M)) :
    prob (fun tape : Fin M → W => ∀ i ∈ positions, below (tape i) = true) = rate below ^ positions.card := by
  classical
  have events : (fun tape : Fin M → W => ∀ i ∈ positions, below (tape i) = true) =
      fun tape => ∀ i, tape i ∈ if i ∈ positions then lowWords below else univ := by
    funext tape
    refine propext (forall_congr' fun i => ?_)
    split
    · rename_i here
      exact (imp_iff_right here).trans mem_lowWords.symm
    · rename_i there
      exact iff_of_true (fun here => absurd here there) (mem_univ _)
  have words : (Fintype.card W : ℝ) ≠ 0 := Nat.cast_ne_zero.mpr Fintype.card_ne_zero
  have each : ∀ i : Fin M, ((if i ∈ positions then lowWords below else univ).card : ℝ) / Fintype.card W =
      if i ∈ positions then rate below else 1 := fun i => by
    split
    · rfl
    · rw [card_univ, div_self words]
  rw [events, prob_box]
  simp only [each]
  rw [prod_ite, prod_const_one, mul_one, prod_const, filter_mem_eq_inter, univ_inter]

/-- Long runs are rare. -/
theorem prob_le_run [Inhabited W] {k : Nat} (hk : k ≤ n) (inside : start + n ≤ M) :
    prob (fun tape : Fin M → W => k ≤ Tape.run below (stream tape) start n) = rate below ^ k := by
  simp only [le_run_iff hk inside]
  rw [prob_low, card_block (by omega)]

/-- Runs on disjoint blocks are independent. -/
theorem prob_le_runs [Inhabited W] {k k' start' : Nat} (hk : k ≤ n) (hk' : k' ≤ n) (inside : start + n ≤ M)
    (inside' : start' + n ≤ M) (apart : start + n ≤ start' ∨ start' + n ≤ start) :
    prob (fun tape : Fin M → W => k ≤ Tape.run below (stream tape) start n ∧ k' ≤ Tape.run below (stream tape) start' n) =
      rate below ^ (k + k') := by
  simp only [le_run_iff hk inside, le_run_iff hk' inside', ← forall_mem_union]
  have disjoint : Disjoint (block M start k) (block M start' k') := by
    rw [disjoint_left]
    intro i hi hi'
    have here := (mem_filter.mp hi).2
    have there := (mem_filter.mp hi').2
    omega
  rw [prob_low, card_union_of_disjoint disjoint, card_block (by omega), card_block (by omega)]

end Count
end Roga.Tape
