import Roga.Histogram.Accounting
import Roga.Histogram.Occupancy
import Roga.Oblivious.Naturality
import Roga.Oblivious.Runs

/-! The fields of a dummy slot other than its tag may be stale. Nothing reads them: an
eviction of a tree whose stale fields have been cleared first ends in the same tree, up to
stale fields. -/
namespace Roga
open Ct Reals ObliviousStash
variable {Z K A S : Nat} {V : Type} [Inhabited V]

namespace OramBlock
variable {b : OramBlock K V}

/-- A dummy slot loses its stale fields. -/
def wipe (b : OramBlock K V) : OramBlock K V := if b.isReal then b else dummy

theorem wipe_real (real : b.isReal = true) : b.wipe = b := if_pos real

theorem wipe_of_dummy (stale : b.isReal = false) : b.wipe = dummy := by
  rw [wipe, stale, if_neg Bool.false_ne_true]

@[simp] theorem wipe_dummy : (dummy : OramBlock K V).wipe = dummy := rfl

@[simp] theorem wipe_tag (b : OramBlock K V) : b.wipe.tag = b.tag := by
  cases h : b.isReal with
  | true => rw [wipe_real h]
  | false =>
    rw [wipe_of_dummy h]
    exact (isReal_eq_false.mp h).symm

@[simp] theorem isReal_wipe (b : OramBlock K V) : b.wipe.isReal = b.isReal := by
  rw [isReal, wipe_tag]
  rfl

@[simp] theorem wipe_wipe (b : OramBlock K V) : b.wipe.wipe = b.wipe := by
  cases h : b.isReal with
  | true => rw [wipe_real h, wipe_real h]
  | false => rw [wipe_of_dummy h, wipe_dummy]

end OramBlock
open OramBlock

section Slots
variable {xs ys : List (OramBlock K V)}

@[simp] theorem map_wipe_wipe (xs : List (OramBlock K V)) : (xs.map wipe).map wipe = xs.map wipe := by
  rw [List.map_map]
  exact List.map_congr_left fun b _ => wipe_wipe b

@[simp] theorem reals_map_wipe (xs : List (OramBlock K V)) : reals (xs.map wipe) = reals xs := by
  induction xs with
  | nil => rfl
  | cons b xs ih =>
    rw [List.map_cons]
    cases h : b.isReal with
    | true => rw [wipe_real h, reals_cons_real h, reals_cons_real h, ih]
    | false => rw [wipe_of_dummy h, reals_cons_dummy rfl, reals_cons_dummy h, ih]

theorem reals_eq_of_wipe (same : xs.map wipe = ys.map wipe) : reals xs = reals ys := by
  rw [← reals_map_wipe xs, same, reals_map_wipe]

/-- Dummies alone are wiped to dummies. -/
theorem map_wipe_of_reals_nil (none : reals xs = []) : xs.map wipe = List.replicate xs.length dummy := by
  apply List.eq_replicate_iff.mpr ⟨List.length_map _, fun b hb => ?_⟩
  obtain ⟨a, ha, rfl⟩ := List.mem_map.mp hb
  exact wipe_of_dummy (reals_eq_nil.mp none a ha)

@[simp] theorem compactMarks_map_wipe (xs : List (OramBlock K V)) : compactMarks (xs.map wipe) = compactMarks xs := by
  rw [compactMarks, compactMarks, List.map_map]
  refine congrArg (fun flags => 0 :: runningMarks 0 flags) (List.map_congr_left fun b _ => ?_)
  exact congrArg Roga.ctIsReal (wipe_tag b)

section Reduction
variable [Add V]

omit [Add V] in
theorem joins_wipe (prev cur : OramBlock K V) : joins prev.wipe cur.wipe = joins prev cur := by
  rw [joins, joins, isReal_wipe, isReal_wipe]
  cases hp : prev.isReal with
  | false => rfl
  | true =>
    cases hc : cur.isReal with
    | false => rfl
    | true => rw [wipe_real hp, wipe_real hc]

theorem mergeRuns_wipe (prev : OramBlock K V) (rest : List (OramBlock K V)) :
    (mergeRuns prev.wipe (rest.map wipe)).map wipe = (mergeRuns prev rest).map wipe := by
  induction rest generalizing prev with
  | nil => exact congrArg (fun b => [b]) (wipe_wipe prev)
  | cons cur rest ih =>
    rw [List.map_cons, mergeRuns, mergeRuns, joins_wipe]
    cases together : joins prev cur with
    | true =>
      obtain ⟨⟨hp, hc⟩, -⟩ := joins_iff.mp together
      have absorbed : (absorbRun prev cur).isReal = true := hc
      rw [if_pos rfl, if_pos rfl, wipe_real hp, wipe_real hc, List.map_cons, List.map_cons, ← ih (absorbRun prev cur),
        wipe_real absorbed]
    | false =>
      rw [if_neg Bool.false_ne_true, if_neg Bool.false_ne_true, List.map_cons, List.map_cons, wipe_wipe, ih]

theorem reduceEqualRuns_wipe (blocks : List (OramBlock K V)) :
    (reduceEqualRuns (blocks.map wipe)).map wipe = (reduceEqualRuns blocks).map wipe := by
  cases blocks with
  | nil => rfl
  | cons first rest => rw [List.map_cons, reduceEqualRuns_cons, reduceEqualRuns_cons, mergeRuns_wipe]

/-- Keys that depend on the tag alone sort wiped slots in the same way. -/
theorem sortReduce_wipe (blocks : List (OramBlock K V)) {keyOf : OramBlock K V → UInt64}
    (tagged : ∀ b, keyOf b.wipe = keyOf b) :
    (sortReduce (blocks.map wipe) keyOf).map wipe = (sortReduce blocks keyOf).map wipe := by
  have keys : (blocks.map wipe).map keyOf = blocks.map keyOf := by
    rw [List.map_map]
    exact List.map_congr_left fun b _ => tagged b
  rw [sortReduce, sortReduce, keys, Djbsort.sortWithPayload_map]
  exact reduceEqualRuns_wipe _

end Reduction
end Slots

namespace ObliviousStash

def wipe (stash : ObliviousStash Z K S V) : ObliviousStash Z K S V :=
  { stash with blocks := stash.blocks.map OramBlock.wipe }

theorem wipe_overflowSlots (stash : ObliviousStash Z K S V) :
    stash.wipe.overflowSlots = stash.overflowSlots.map OramBlock.wipe := List.map_drop.symm

theorem readFromPath_wipe (stash : ObliviousStash Z K S V) (memory : List (OramBlock K V)) (position : TreeIndex) :
    stash.wipe.readFromPath (memory.map OramBlock.wipe) position = (stash.readFromPath memory position).wipe := by
  have buckets : (fun depth => bucketAt Z (memory.map OramBlock.wipe) (ctNodeOnPath position depth (ctDepth position))) =
      fun depth => (bucketAt Z memory (ctNodeOnPath position depth (ctDepth position))).map OramBlock.wipe := by
    funext depth
    exact bucketAt_map _ _ _ _
  rw [readFromPath, buckets]
  exact congrArg (fun blocks => ({ stash with blocks } : ObliviousStash Z K S V))
    (setBuckets_map OramBlock.wipe Z _ _ _ _)

theorem mergeAccumulateForPath_wipe [Add V] (stash : ObliviousStash Z K S V) (position : TreeIndex) :
    (stash.wipe.mergeAccumulateForPath position).wipe = (stash.mergeAccumulateForPath position).wipe := by
  refine congrArg (fun blocks => ({ stash with blocks } : ObliviousStash Z K S V))
    (sortReduce_wipe stash.blocks fun b => ?_)
  rw [wipe_tag]

theorem assignBlock_wipe (position height : Nat) (state : List Nat × Nat) (b : OramBlock K V) :
    assignBlock Z position height state b.wipe = assignBlock Z position height state b := by
  rw [assignBlock, assignBlock, wipe_tag]

/-- What is written back and whether it fits does not depend on stale fields. -/
theorem writeToPath_wipe (stash : ObliviousStash Z K S V) (memory : List (OramBlock K V)) (position : TreeIndex) :
    stash.wipe.writeToPath (memory.map OramBlock.wipe) position =
      (stash.writeToPath memory position).map (Prod.map wipe (List.map OramBlock.wipe)) := by
  have scan : (stash.blocks.map OramBlock.wipe).foldl (assignBlock Z position (ctDepth position)) (List.replicate 32 0, 0) =
      stash.blocks.foldl (assignBlock Z position (ctDepth position)) (List.replicate 32 0, 0) := by
    rw [List.foldl_map]
    simp only [assignBlock_wipe]
  rw [writeToPath, writeToPath]
  simp only [wipe, scan, List.length_map, compactMarks_map_wipe]
  split
  · rfl
  · simp only [compactPayload_map, distributePayload_map, bucketAt_map, setBuckets_map, Except.map, Prod.map_apply,
      ObliviousStash.wipe, List.map_append, List.map_replicate, List.map_drop, wipe_dummy]

theorem occupancy_wipe (stash : ObliviousStash Z K S V) : stash.wipe.occupancy = stash.occupancy := by
  rw [occupancy_eq, occupancy_eq, wipe_overflowSlots, reals_map_wipe]

theorem countMatchingBlocks_wipe (stash : ObliviousStash Z K S V) (height : Nat) (leaf : TreeIndex) (epoch : UInt8) :
    stash.wipe.countMatchingBlocks height leaf epoch = stash.countMatchingBlocks height leaf epoch := by
  rw [countMatchingBlocks_eq, countMatchingBlocks_eq]
  exact congrArg (fun blocks => (blocks.filter fun b => toLeaf b.tag height = leaf ∧ b.epoch = epoch).length)
    (reals_map_wipe stash.blocks)

theorem growExtendPathBuffer_wipe (stash : ObliviousStash Z K S V) :
    stash.wipe.growExtendPathBuffer = stash.growExtendPathBuffer.wipe := by
  simp only [growExtendPathBuffer, wipe, List.map_append, List.map_take, List.map_drop, List.map_replicate, wipe_dummy]

end ObliviousStash

namespace ObliviousHistogram

/-- The tree with no stale fields. -/
def wipe (h : ObliviousHistogram Z K A S V) : ObliviousHistogram Z K A S V :=
  { h with physicalMemory := h.physicalMemory.map OramBlock.wipe, stash := h.stash.wipe }

section Resize
variable (math : ResizeMath)

theorem growPhysicalStorage_wipe (h : ObliviousHistogram Z K A S V) :
    h.wipe.growPhysicalStorage = h.growPhysicalStorage.map wipe := by
  rw [growPhysicalStorage, growPhysicalStorage]
  simp only [wipe, List.length_map, growExtendPathBuffer_wipe]
  split
  · simp only [Except.map, wipe, List.map_append, List.map_replicate, wipe_dummy]
  · rfl

theorem onTreeGrown_wipe (h : ObliviousHistogram Z K A S V) : h.wipe.onTreeGrown math = (h.onTreeGrown math).map wipe := by
  have same : h.wipe.autoResize = h.autoResize := rfl
  rw [onTreeGrown, onTreeGrown, same]
  cases h.autoResize with
  | none => rfl
  | some auto =>
    change (auto.onTreeGrown math Z A h.height >>= _) = Except.map wipe (auto.onTreeGrown math Z A h.height >>= _)
    cases auto.onTreeGrown math Z A h.height with
    | error e => rfl
    | ok next => rfl

theorem applyAutoResizeGrow_wipe (h : ObliviousHistogram Z K A S V) (target : Nat) :
    h.wipe.applyAutoResizeGrow math target = (h.applyAutoResizeGrow math target).map wipe := by
  rw [applyAutoResizeGrow, applyAutoResizeGrow, growPhysicalStorage_wipe]
  cases h.growPhysicalStorage with
  | error e => rfl
  | ok g =>
    change (g.wipe.onTreeGrown math >>= _) = Except.map wipe (g.onTreeGrown math >>= _)
    rw [onTreeGrown_wipe]
    cases g.onTreeGrown math with
    | error e => rfl
    | ok m => rfl

theorem checkAndMaybeResizePostEviction_wipe (h : ObliviousHistogram Z K A S V) :
    h.wipe.checkAndMaybeResizePostEviction math = (h.checkAndMaybeResizePostEviction math).map wipe := by
  have same : h.wipe.autoResize = h.autoResize := rfl
  rw [checkAndMaybeResizePostEviction, checkAndMaybeResizePostEviction, same]
  cases h.autoResize with
  | none => rfl
  | some auto =>
    cases due : auto.shouldCheckEpoch with
    | false =>
      simp only [due, Bool.not_false, if_true]
      rfl
    | true =>
      have evaluated : h.wipe.evaluateSignal math auto = Prod.map id wipe (h.evaluateSignal math auto) := rfl
      cases deferred : auto.deferred with
      | true =>
        simp only [due, deferred, Bool.not_true, Bool.false_eq_true, if_false, if_true, evaluated]
        split
        · rfl
        · rfl
      | false =>
        simp only [due, deferred, Bool.not_true, Bool.false_eq_true, if_false, checkAndMaybeResize, evaluated]
        cases signal : (h.evaluateSignal math auto).1 with
        | none =>
          simp only [Prod.map, signal, id]
          rfl
        | some target =>
          simp only [Prod.map, signal, id]
          exact applyAutoResizeGrow_wipe math _ target

theorem accumulateResizeAccounting_wipe (h : ObliviousHistogram Z K A S V) (leaf : TreeIndex) :
    h.wipe.accumulateResizeAccounting leaf = (h.accumulateResizeAccounting leaf).wipe := by
  have same : h.wipe.autoResize = h.autoResize := rfl
  have counted := countMatchingBlocks_wipe h.stash h.height leaf h.epoch
  rw [accumulateResizeAccounting, accumulateResizeAccounting, same]
  cases h.autoResize with
  | none => rfl
  | some auto =>
    rw [← counted]
    rfl

end Resize

section Access
variable [Add V]

omit [Add V] in
theorem readPath_wipe (h : ObliviousHistogram Z K A S V) (leaf : TreeIndex) :
    h.wipe.readPath leaf = (h.readPath leaf).wipe :=
  congrArg (fun stash => ({ h.wipe with stash } : ObliviousHistogram Z K A S V).log (.access leaf))
    (readFromPath_wipe h.stash h.physicalMemory leaf)

theorem mergePath_wipe (h : ObliviousHistogram Z K A S V) (leaf : TreeIndex) :
    (h.wipe.mergePath leaf).wipe = (h.mergePath leaf).wipe := by
  have slots := map_wipe_wipe h.physicalMemory
  have merged := mergeAccumulateForPath_wipe h.stash leaf
  exact congrArg₂ (fun physicalMemory stash => ({ h with physicalMemory, stash } : ObliviousHistogram Z K A S V))
    slots merged

omit [Add V] in
theorem writePath_wipe (h : ObliviousHistogram Z K A S V) (leaf : TreeIndex) :
    h.wipe.writePath leaf = (h.writePath leaf).map wipe := by
  have written := writeToPath_wipe h.stash h.physicalMemory leaf
  have stash : h.wipe.stash = h.stash.wipe := rfl
  have memory : h.wipe.physicalMemory = h.physicalMemory.map OramBlock.wipe := rfl
  rw [writePath, writePath, stash, memory, written]
  cases h.stash.writeToPath h.physicalMemory leaf with
  | error e => rfl
  | ok r => rfl

omit [Add V] in
theorem updatePeakOverflow_wipe (h : ObliviousHistogram Z K A S V) :
    h.wipe.updatePeakOverflow = h.updatePeakOverflow.wipe := by
  have counted := occupancy_wipe h.stash
  have same : h.wipe.stash = h.stash.wipe := rfl
  rw [updatePeakOverflow, updatePeakOverflow, same, counted]
  by_cases higher : h.stash.occupancy > h.peakOverflow
  · simp only [if_pos higher, if_pos (show h.stash.occupancy > h.wipe.peakOverflow from higher)]
    rfl
  · simp only [if_neg higher, if_neg (show ¬ h.stash.occupancy > h.wipe.peakOverflow from higher)]

theorem evictPrepared_wipe (h : ObliviousHistogram Z K A S V) : h.wipe.evictPrepared.wipe = h.evictPrepared.wipe := by
  have merged : ∀ (g : ObliviousHistogram Z K A S V) (leaf : TreeIndex),
      ((g.wipe.mergePath leaf).accumulateResizeAccounting leaf).wipe =
        ((g.mergePath leaf).accumulateResizeAccounting leaf).wipe := by
    intro g leaf
    rw [← accumulateResizeAccounting_wipe, ← accumulateResizeAccounting_wipe, mergePath_wipe]
  have swept : ∀ (g : ObliviousHistogram Z K A S V) (leaf : TreeIndex),
      (((if g.wipe.evictCtr ≤ g.wipe.sweepEnd then g.wipe.log (.sibling (leaf ^^^ 1)) else g.wipe).mergePath
          leaf).accumulateResizeAccounting leaf).wipe =
        (((if g.evictCtr ≤ g.sweepEnd then g.log (.sibling (leaf ^^^ 1)) else g).mergePath
          leaf).accumulateResizeAccounting leaf).wipe := by
    intro g leaf
    by_cases sweeping : g.evictCtr ≤ g.sweepEnd
    · rw [if_pos sweeping, if_pos (show g.wipe.evictCtr ≤ g.wipe.sweepEnd from sweeping)]
      exact merged (g.log _) leaf
    · rw [if_neg sweeping, if_neg (show ¬ g.wipe.evictCtr ≤ g.wipe.sweepEnd from sweeping)]
      exact merged g leaf
  have start : ∀ (g : ObliviousHistogram Z K A S V) (leaf : TreeIndex),
      (((if (g.wipe.readPath leaf).evictCtr ≤ (g.wipe.readPath leaf).sweepEnd then
          (g.wipe.readPath leaf).log (.sibling (leaf ^^^ 1)) else g.wipe.readPath leaf).mergePath
          leaf).accumulateResizeAccounting leaf).wipe =
        (((if (g.readPath leaf).evictCtr ≤ (g.readPath leaf).sweepEnd then
          (g.readPath leaf).log (.sibling (leaf ^^^ 1)) else g.readPath leaf).mergePath
          leaf).accumulateResizeAccounting leaf).wipe := by
    intro g leaf
    rw [readPath_wipe]
    exact swept (g.readPath leaf) leaf
  exact start ({ h with evictCtr := h.evictCtr + 1 }.log (.evict (evictLeafAt h.height h.evictCtr)))
    (evictLeafAt h.height h.evictCtr)

/-- An eviction panics alike, and ends alike, whatever the stale fields hold. -/
theorem evictAfterInsert_wipe (math : ResizeMath) (h : ObliviousHistogram Z K A S V) :
    (h.wipe.evictAfterInsert math).map wipe = (h.evictAfterInsert math).map wipe := by
  have rest : ∀ (p : ObliviousHistogram Z K A S V) (leaf : TreeIndex),
      Except.map wipe (p.writePath leaf >>= fun g => g.updatePeakOverflow.checkAndMaybeResizePostEviction math) =
        p.wipe.writePath leaf >>= fun g => g.updatePeakOverflow.checkAndMaybeResizePostEviction math := by
    intro p leaf
    rw [writePath_wipe]
    cases p.writePath leaf with
    | error e => rfl
    | ok g =>
      change Except.map wipe (g.updatePeakOverflow.checkAndMaybeResizePostEviction math) =
        g.wipe.updatePeakOverflow.checkAndMaybeResizePostEviction math
      rw [updatePeakOverflow_wipe, checkAndMaybeResizePostEviction_wipe]
  refine (rest h.wipe.evictPrepared (evictLeafAt h.height h.evictCtr)).trans ?_
  rw [evictPrepared_wipe]
  exact (rest h.evictPrepared (evictLeafAt h.height h.evictCtr)).symm

end Access
end ObliviousHistogram
end Roga
