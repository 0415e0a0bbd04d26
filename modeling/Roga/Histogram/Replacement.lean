import Roga.Histogram.Batching
import Roga.Histogram.Calibration

/-! Histories that differ in one key. What is in a masked slot changes nothing, so that two
histories that agree without the slots of a key each are compared through the one with both masked out. -/
namespace Roga
open Ct Reals ObliviousStash SparseVector ObliviousHistogram
variable {Z K A S : Nat} {V : Type} {math : ResizeMath} [Add V] [Inhabited V]

section Blank

/-- A masked update with nothing in it. -/
def blankUpdate (u : PreparedUpdate K V) : PreparedUpdate K V :=
  if u.2.2.2 &&& 1 = 0 then (0, default, Vector.replicate K 0, 0) else u

/-- The operation without what its masked slots carry. -/
def TreeOp.blank : TreeOp K V → TreeOp K V
  | .appendBatch updates => .appendBatch (updates.map blankUpdate)
  | op => op

/-- The operation without the updates of `x`. -/
def TreeOp.erase (prf : Aes128) (x : List UInt8) (op : TreeOp K V) : TreeOp K V := (op.mask prf x).blank

omit [Add V] in
/-- An erased append is a slot with nothing in it. -/
theorem TreeOp.erase_append_self (prf : Aes128) (x : List UInt8) (val : V) :
    (TreeOp.append x val : TreeOp K V).erase prf x = .appendBatch [(0, default, Vector.replicate K 0, 0)] := by
  have masked : (0 : UInt8) &&& 1 = 0 := rfl
  rw [erase, mask, if_pos rfl, blank, List.map_singleton, blankUpdate, if_pos masked]

omit [Add V] in
/-- A masked update leaves its slot a dummy. -/
theorem assignIf_blankUpdate (epoch : UInt8) (u : PreparedUpdate K V) :
    (OramBlock.dummy : OramBlock K V).assignIf (blankUpdate u).1 epoch (blankUpdate u).2.1 (blankUpdate u).2.2.1
      ((blankUpdate u).2.2.2 &&& 1) = OramBlock.dummy.assignIf u.1 epoch u.2.1 u.2.2.1 (u.2.2.2 &&& 1) := by
  have stays : ∀ (tag : UInt64) (value : V) (payload : Vector UInt8 K),
      OramBlock.dummy.assignIf tag epoch value payload 0 = OramBlock.dummy := fun _ _ _ =>
    OramBlock.assignIf_toUInt8 _ _ _ _ _ false
  have none : (0 : UInt8) &&& 1 = 0 := rfl
  rw [blankUpdate]
  split
  · rename_i masked
    rw [masked, none, stays, stays]
  · rfl

omit [Add V] in
theorem slotEvents_blankUpdate (epoch : UInt8) (u : PreparedUpdate K V) :
    slotEvents epoch (blankUpdate u) = slotEvents epoch u := by
  rw [slotEvents, slotEvents, blankUpdate]
  split
  · rename_i masked
    have none : (0 : UInt8) &&& 1 = 0 := rfl
    rw [if_neg (not_not.mpr masked), if_neg (not_not.mpr none)]
  · rfl

omit [Add V] in
/-- Only the blocks of the updates matter to the stash. -/
theorem insertBatch_congr (stash : ObliviousStash Z K S V) {updates updates' : List (MaskedUpdate K V)}
    (same : (updates.map fun u => (OramBlock.dummy : OramBlock K V).assignIf u.1 u.2.1 u.2.2.1 u.2.2.2.1 (u.2.2.2.2 &&& 1)) =
      updates'.map fun u => OramBlock.dummy.assignIf u.1 u.2.1 u.2.2.1 u.2.2.2.1 (u.2.2.2.2 &&& 1)) :
    stash.insertBatch updates = stash.insertBatch updates' := by
  have length := congrArg List.length same
  rw [List.length_map, List.length_map] at length
  rw [insertBatch, insertBatch, same, length]

omit [Add V] in
theorem filled_blank (h : ObliviousHistogram Z K A S V) (updates : List (PreparedUpdate K V)) (stash : ObliviousStash Z K S V) :
    h.filled (updates.map blankUpdate) stash = h.filled updates stash := by
  rw [filled, filled, List.length_map, logSlots, logSlots, List.flatMap_map]
  simp only [slotEvents_blankUpdate]

theorem appendPreparedMaskedBatch_blank (h : ObliviousHistogram Z K A S V) (updates : List (PreparedUpdate K V)) :
    h.appendPreparedMaskedBatch math (updates.map blankUpdate) = h.appendPreparedMaskedBatch math updates := by
  induction hn : updates.length using Nat.strong_induction_on generalizing h updates with
  | _ n ih =>
    by_cases none : updates = []
    · rw [none]
      rfl
    have some : updates.map blankUpdate ≠ [] := fun empty => none (List.map_eq_nil_iff.mp empty)
    by_cases period : h.currentEvictInterval = 0
    · rw [appendPreparedMaskedBatch, dif_neg some, appendPreparedMaskedBatch, dif_neg none]
      simp only [dif_pos period]
    · have stash : ∀ chunk : List (PreparedUpdate K V),
          h.stash.insertBatch ((chunk.map blankUpdate).map (stamp h.epoch)) = h.stash.insertBatch (chunk.map (stamp h.epoch)) :=
        fun chunk => insertBatch_congr _ (by
          simp only [List.map_map]
          exact List.map_congr_left fun u _ => assignIf_blankUpdate h.epoch u)
      rw [appendPreparedMaskedBatch_eq math some period rfl, appendPreparedMaskedBatch_eq math none period rfl,
        List.length_map, ← List.map_take, ← List.map_drop, stash]
      congr 1
      funext stash
      rw [filled_blank]
      congr 1
      funext g
      refine ih _ ?_ g _ rfl
      have progress := h.chunkLen_pos period (List.length_pos_iff.mpr none)
      have := List.length_pos_iff.mpr none
      rw [List.length_drop]
      omega

theorem step_blank (h : ObliviousHistogram Z K A S V) (op : TreeOp K V) : h.step math op.blank = h.step math op := by
  cases op with
  | appendBatch updates => rw [TreeOp.blank, step, step, appendPreparedMaskedBatch_blank]
  | _ => rfl

theorem run_blank (h : ObliviousHistogram Z K A S V) (ops : List (TreeOp K V)) :
    h.run math (ops.map TreeOp.blank) = h.run math ops := by
  induction ops generalizing h with
  | nil => rfl
  | cons op ops ih =>
    rw [List.map_cons, run, run, step_blank]
    simp only [ih]

theorem viewOn_blank {cap M : Nat} {prf : Aes128} (ops : List (TreeOp K V)) (tape : Fin M → UInt64) :
    viewOn Z K A S math cap prf (ops.map TreeOp.blank) tape = viewOn Z K A S math cap prf ops tape := by
  rw [viewOn, viewOn, runNew, runNew]
  simp only [run_blank]

omit [Add V] in
theorem TreeOp.slots_blank (op : TreeOp K V) : op.blank.slots = op.slots := by
  cases op with
  | appendBatch updates => exact List.length_map _
  | _ => rfl

omit [Add V] in
/-- Histories that agree without one key each have equally many slots. -/
theorem sum_slots_of_agree {prf : Aes128} {x y : List UInt8} {ops ops' : List (TreeOp K V)}
    (agree : ops.map (TreeOp.erase prf x) = ops'.map (TreeOp.erase prf y)) :
    (ops.map TreeOp.slots).sum = (ops'.map TreeOp.slots).sum := by
  have erased : ∀ (x : List UInt8) (ops : List (TreeOp K V)),
      (ops.map (TreeOp.erase prf x)).map TreeOp.slots = ops.map TreeOp.slots := fun x ops => by
    rw [List.map_map]
    exact List.map_congr_left fun op _ => (TreeOp.slots_blank _).trans (TreeOp.slots_mask prf x op)
  rw [← erased x ops, ← erased y ops', agree]

end Blank

section View
variable {cfg : AutoResizeConfig} {eps : ℝ} {sampler : CtDiscreteLaplace} {cap height M : Nat} {prf : Aes128}
  {keys : List UInt8 → Prop} {x y : List UInt8} {before before' after after' : List (TreeOp K V)} {enable : TreeOp K V}

/-- For a configured epsilon, the factor and the slack of a masked key. -/
theorem view_masked (sep : Separated prf K keys) (hx : keys x) (enables : enable.Enables cfg)
    (routine : ∀ op ∈ before ++ after, op.Routine) (tracked : ∀ op ∈ before ++ after, op.Tracked prf keys)
    (start : treeHeightForCapacity cap Z = .ok height) (unwrapped : Unwrapped math Z A cfg height sampler)
    (made : CtDiscreteLaplace.new eps = .ok sampler) (source : math.newSampler cfg.eps = .ok sampler) :
    let ops := before ++ enable :: after
    let draws := 2 * (ops.map TreeOp.slots).sum + 1
    2 * sampler.trials * draws ≤ M →
    (∀ tape : Fin M → UInt64, viewOn Z K A S math cap prf ops tape ≠ none) →
    (∀ tape : Fin M → UInt64, viewOn Z K A S math cap prf (ops.map (TreeOp.mask prf x)) tape ≠ none) →
    Tape.Indistinguishable (Real.exp (eps / 2 * (1 + ops.countP (TreeOp.reads x)))) (draws * Real.exp (eps / 6) / 2 ^ 129)
      (fun tape : Fin M → UInt64 => viewOn Z K A S math cap prf ops tape)
      fun tape => viewOn Z K A S math cap prf (ops.map (TreeOp.mask prf x)) tape := by
  intro ops draws room returns returns'
  obtain ⟨pos, below⟩ := ratio_mem_of_new made
  have least := trials_isLeast made
  have some : 0 < sampler.trials := by
    rw [trials_of_new made]
    exact trialsFor_pos pos below
  obtain ⟨cutoff, low⟩ := cutoff_of_new made
  have close : Tape.Indistinguishable _ _ (fun tape : Fin M → UInt64 => viewOn Z K A S math cap prf ops tape)
      fun tape => viewOn Z K A S math cap prf (ops.map (TreeOp.mask prf x)) tape :=
    view_indistinguishable sep hx enables routine tracked start unwrapped source some cutoff low.le room returns returns'
  have step := inv_ratio_lt made
  apply close.mono
  · calc sampler.ratio⁻¹ ^ (3 * (1 + ops.countP (TreeOp.reads x)))
        ≤ Real.exp (eps / 6) ^ (3 * (1 + ops.countP (TreeOp.reads x))) := pow_le_pow_left₀ (inv_nonneg.mpr pos.le) step.le _
      _ = Real.exp (eps / 2 * (1 + ops.countP (TreeOp.reads x))) := by
        rw [← Real.exp_nat_mul]
        congr 1
        push_cast
        ring
  · have capped : sampler.ratio ^ sampler.trials ≤ 1 / 2 ^ 129 := by
      have : 2 * sampler.ratio ^ sampler.trials ≤ 1 / 2 ^ 128 := least.1
      linarith
    have last : sampler.ratio ^ (sampler.trials - 1) = sampler.ratio⁻¹ * sampler.ratio ^ sampler.trials := by
      obtain ⟨n, trials⟩ := Nat.exists_eq_add_one.mpr some
      rw [trials, Nat.add_sub_cancel, pow_succ', inv_mul_cancel_left₀ pos.ne']
    calc (draws : ℝ) * sampler.ratio ^ (sampler.trials - 1)
        = draws * (sampler.ratio⁻¹ * sampler.ratio ^ sampler.trials) := by rw [last]
      _ ≤ draws * (Real.exp (eps / 6) * (1 / 2 ^ 129)) := by
        apply mul_le_mul_of_nonneg_left _ (Nat.cast_nonneg _)
        exact mul_le_mul step.le capped (pow_nonneg pos.le _) (Real.exp_nonneg _)
      _ = draws * Real.exp (eps / 6) / 2 ^ 129 := by ring


theorem viewOn_erase (x : List UInt8) (ops : List (TreeOp K V)) (tape : Fin M → UInt64) :
    viewOn Z K A S math cap prf (ops.map (TreeOp.erase prf x)) tape =
      viewOn Z K A S math cap prf (ops.map (TreeOp.mask prf x)) tape := by
  have split : ops.map (TreeOp.erase prf x) = (ops.map (TreeOp.mask prf x)).map TreeOp.blank := by
    rw [List.map_map]
    rfl
  rw [split, viewOn_blank]

/-- The histogram keeps its epsilon: what an observer of the memory sees of two histories that agree except for
the updates of one key each is indistinguishable, by half of epsilon for each of the two keys and again for each
read after which it comes back, up to the slack of the draws that reach their cap. -/
theorem view_private (sep : Separated prf K keys) (hx : keys x) (hy : keys y) (enables : enable.Enables cfg)
    (routine : ∀ op ∈ (before ++ after) ++ (before' ++ after'), op.Routine)
    (tracked : ∀ op ∈ (before ++ after) ++ (before' ++ after'), op.Tracked prf keys)
    (agree : before.map (TreeOp.erase prf x) = before'.map (TreeOp.erase prf y))
    (agree' : after.map (TreeOp.erase prf x) = after'.map (TreeOp.erase prf y))
    (start : treeHeightForCapacity cap Z = .ok height) (unwrapped : Unwrapped math Z A cfg height sampler)
    (made : CtDiscreteLaplace.new eps = .ok sampler) (source : math.newSampler cfg.eps = .ok sampler) :
    let ops := before ++ enable :: after
    let ops' := before' ++ enable :: after'
    let draws := 2 * (ops.map TreeOp.slots).sum + 1
    2 * sampler.trials * draws ≤ M →
    (∀ tape : Fin M → UInt64, viewOn Z K A S math cap prf ops tape ≠ none) →
    (∀ tape : Fin M → UInt64, viewOn Z K A S math cap prf ops' tape ≠ none) →
    (∀ tape : Fin M → UInt64, viewOn Z K A S math cap prf (ops.map (TreeOp.erase prf x)) tape ≠ none) →
    Tape.Indistinguishable (Real.exp (eps / 2 * (2 + ops.countP (TreeOp.reads x) + ops'.countP (TreeOp.reads y))))
      ((1 + Real.exp (eps / 2 * (1 + max (ops.countP (TreeOp.reads x)) (ops'.countP (TreeOp.reads y))))) *
        (draws * Real.exp (eps / 6) / 2 ^ 129))
      (fun tape : Fin M → UInt64 => viewOn Z K A S math cap prf ops tape)
      fun tape => viewOn Z K A S math cap prf ops' tape := by
  intro ops ops' draws room returns returns' erased
  have both : ops.map (TreeOp.erase prf x) = ops'.map (TreeOp.erase prf y) := by
    rw [List.map_append, List.map_append, List.map_cons, List.map_cons, agree, agree', TreeOp.erase, TreeOp.erase,
      enables.mask_eq, enables.mask_eq]
  have masked' : ∀ tape : Fin M → UInt64, viewOn Z K A S math cap prf (ops'.map (TreeOp.mask prf y)) tape =
      viewOn Z K A S math cap prf (ops.map (TreeOp.mask prf x)) tape := fun tape => by
    rw [← viewOn_erase, ← viewOn_erase, both]
  have returned : ∀ tape : Fin M → UInt64, viewOn Z K A S math cap prf (ops.map (TreeOp.mask prf x)) tape ≠ none :=
    fun tape => viewOn_erase x ops tape ▸ erased tape
  have slots := sum_slots_of_agree both
  have first := view_masked sep hx enables (fun op hop => routine op (List.mem_append_left _ hop))
    (fun op hop => tracked op (List.mem_append_left _ hop)) start unwrapped made source room returns returned
  have second := view_masked sep hy enables (fun op hop => routine op (List.mem_append_right _ hop))
    (fun op hop => tracked op (List.mem_append_right _ hop)) start unwrapped made source (slots ▸ room) returns'
    fun tape => (masked' tape).symm ▸ returned tape
  rw [show (fun tape : Fin M → UInt64 => viewOn Z K A S math cap prf (ops'.map (TreeOp.mask prf y)) tape) = _ from
    funext masked', ← slots] at second
  have pos : 0 < eps := (CtDiscreteLaplace.new_eq_ok.mp made).1.1
  have joined := first.trans second.symm (Real.exp_nonneg _) (Real.exp_nonneg _) (by positivity)
  refine joined.mono (le_of_eq ?_) (mul_le_mul_of_nonneg_right ?_ (by positivity))
  · rw [← Real.exp_add]
    congr 1
    ring
  · apply add_le_add_right
    have grows : ∀ r : Nat, r ≤ max (ops.countP (TreeOp.reads x)) (ops'.countP (TreeOp.reads y)) →
        Real.exp (eps / 2 * (1 + r)) ≤
          Real.exp (eps / 2 * (1 + (max (ops.countP (TreeOp.reads x)) (ops'.countP (TreeOp.reads y)) : Nat))) := by
      intro r le
      rw [Real.exp_le_exp]
      apply mul_le_mul_of_nonneg_left _ (by positivity)
      exact add_le_add_right (Nat.cast_le.mpr le) 1
    exact max_le (grows _ (le_max_left _ _)) (grows _ (le_max_right _ _))

/-- The formulas with this sampler. -/
def ResizeMath.sampling (sampler : CtDiscreteLaplace) : ResizeMath :=
  { ResizeMath.constant with newSampler := fun _ => .ok sampler }

theorem view_private_two_keys : ∃ sampler, CtDiscreteLaplace.new 1 = .ok sampler ∧
    let math := ResizeMath.sampling sampler
    let ops := [TreeOp.enableAutoResize ⟨4, 1, 0.01, 7⟩, .append [1] 5]
    let ops' := [TreeOp.enableAutoResize ⟨4, 1, 0.01, 7⟩, .append [2] 7]
    Tape.Indistinguishable (Real.exp 1) ((1 + Real.exp (1 / 2)) * (3 * Real.exp (1 / 6) / 2 ^ 129))
      (fun tape : Fin (2 * sampler.trials * 3) → UInt64 => viewOn 1 1 1 4 math 2 id (ops : List (TreeOp 1 Nat)) tape)
      fun tape => viewOn 1 1 1 4 math 2 id ops' tape := by
  obtain ⟨sampler, made⟩ := new_of_one_le (le_refl 1)
  refine ⟨sampler, made, ?_⟩
  intro math ops ops'
  have start : treeHeightForCapacity 2 1 = .ok 1 := by decide
  have zero : -2 ^ 62 ≤ (0 : Int64).toInt ∧ (0 : Int64).toInt ≤ 2 ^ 62 := by decide
  have quantile : 0 ≤ (0 : Int64).toInt ∧ (0 : Int64).toInt ≤ sampler.trials := ⟨by decide, Int.natCast_nonneg _⟩
  have unwrapped : Unwrapped math 1 1 ⟨4, 1, 0.01, 7⟩ 1 sampler := ⟨trials_lt made, quantile, quantile, fun _ => zero⟩
  have returns : ∀ ops : List (TreeOp 1 Nat), (∀ words, AllAllowed (math.withWords words) none ops) →
      (ops.map fun op => (op.inserts id).length).sum < 4 → 1 + (ops.map TreeOp.growths).sum ≤ maxTreeHeight →
        ∀ tape : Fin (2 * sampler.trials * 3) → UInt64, viewOn 1 1 1 4 math 2 id ops tape ≠ none :=
    fun ops allowed room low tape => viewOn_ne_none (runNew_ok _ Nat.one_pos start id (allowed _) room low)
  have agree : ([.append [1] 5] : List (TreeOp 1 Nat)).map (TreeOp.erase id [1]) =
      ([.append [2] 7] : List (TreeOp 1 Nat)).map (TreeOp.erase id [2]) := by
    rw [List.map_singleton, List.map_singleton, TreeOp.erase_append_self, TreeOp.erase_append_self]
  have close : Tape.Indistinguishable _ _
      (fun tape : Fin (2 * sampler.trials * 3) → UInt64 => viewOn 1 1 1 4 math 2 id ([] ++ ops) tape)
      fun tape => viewOn 1 1 1 4 math 2 id ([] ++ ops') tape :=
    view_private separated_pair (.inl rfl) (.inr rfl) (.inl rfl) (by simp [TreeOp.Routine])
      (by simp [TreeOp.Tracked]) rfl agree start unwrapped made rfl (Nat.le_refl _)
      (returns _ (fun _ => ⟨⟨⟨_, rfl⟩, rfl, rfl⟩, trivial, trivial⟩) (by decide +kernel) (by decide))
      (returns _ (fun _ => ⟨⟨⟨_, rfl⟩, rfl, rfl⟩, trivial, trivial⟩) (by decide +kernel) (by decide))
      (returns _ (fun _ => ⟨⟨⟨_, rfl⟩, rfl, rfl⟩, trivial, trivial⟩) (by decide +kernel) (by decide))
  have unread : ops.countP (TreeOp.reads [1]) = 0 := rfl
  have unread' : ops'.countP (TreeOp.reads [2]) = 0 := rfl
  have slots : (ops.map TreeOp.slots).sum = 1 := rfl
  rw [List.nil_append, List.nil_append, unread, unread', slots] at close
  refine close.mono (le_of_eq ?_) (le_of_eq ?_)
  · norm_num
  · norm_num

end View
end Roga
