import Roga.Histogram.WriteBack
import Roga.Histogram.Control

/-! Path accesses and the overflow region. The blocks a path access reads fit
where they were, so the greedy placement leaves out no more of them than before. -/
namespace Roga
open Ct Reals ObliviousStash ObliviousHistogram
variable {Z K A S : Nat} {V : Type} {math : ResizeMath}

theorem occupancy_eq (stash : ObliviousStash Z K S V) : stash.occupancy = (reals stash.overflowSlots).length := by
  rw [occupancy]
  generalize stash.overflowSlots = slots
  induction slots with
  | nil => rfl
  | cons b slots ih =>
    have real : ctIsReal b.tag = b.isReal.toUInt8 := OramBlock.ctIsReal_isReal b
    rw [List.map_cons, List.sum_cons, ih, real]
    cases hb : b.isReal with
    | false =>
      rw [reals_cons_dummy hb]
      exact Nat.zero_add _
    | true =>
      rw [reals_cons_real hb]
      exact Nat.add_comm ..

namespace ObliviousHistogram
variable {known : UInt64 × Vector UInt8 K → Prop} {h h' : ObliviousHistogram Z K A S V} {leaf : TreeIndex}

section Held
variable (low : 2 ^ h.height ≤ leaf) (high : leaf < 2 ^ (h.height + 1))
include low high

/-- The blocks read from the path whose deepest level is above `t` lie in the buckets above `t`. -/
theorem path_countP (inv : h.Inv known) {t : Nat} (ht : t ≤ h.height + 1) :
    ((pathNodes leaf h.height).flatMap h.bucket).countP
      (fun b => deepestSharedLevel leaf b.tag h.height < t) ≤ t * Z := by
  obtain ⟨k, hk⟩ := Nat.exists_eq_add_of_le ht
  rw [pathNodes, hk, List.range_add, List.map_append, List.flatMap_append, List.countP_append]
  have deep : ((List.map (fun d => ctNodeOnPath leaf d h.height) ((List.range k).map (t + ·))).flatMap
      h.bucket).countP (fun b => deepestSharedLevel leaf b.tag h.height < t) = 0 := by
    refine List.countP_eq_zero.mpr fun b hb => ?_
    obtain ⟨n, hn, hb⟩ := List.mem_flatMap.mp hb
    obtain ⟨d, hd, rfl⟩ := List.mem_map.mp hn
    obtain ⟨i, hi, rfl⟩ := List.mem_map.mp hd
    have inside : t + i ≤ h.height := by
      have := List.mem_range.mp hi
      omega
    have bounds := ctNodeOnPath_bounds low high inside
    have range := ctNodeOnPath_lt low high inside
    have here := inv.onPath _ range.1 range.2 b hb
    rw [log2_of_bounds bounds.1 bounds.2] at here
    have level := (le_deepestSharedLevel b.tag low high inv.shape.height_le inside).mpr here
    simp only [decide_eq_true_eq]
    omega
  rw [deep, Nat.add_zero]
  refine (List.countP_le_length).trans ?_
  rw [List.length_flatMap, List.map_map]
  have small : ∀ n ∈ (List.range t).map (List.length ∘ h.bucket ∘ fun d => ctNodeOnPath leaf d h.height), n ≤ Z := by
    intro n hn
    obtain ⟨d, -, rfl⟩ := List.mem_map.mp hn
    refine (List.length_filter_le _ _).trans ?_
    rw [bucketAt, List.length_take]
    exact Nat.min_le_left _ _
  have total := List.sum_le_card_nsmul _ Z small
  rwa [List.length_map, List.length_range, smul_eq_mul] at total

/-- Blocks that a path access has read leave out no more than lay in the overflow. -/
theorem overflowCount_le (inv : h.Inv known) {stash : ObliviousStash Z K S V}
    (read : ((reals stash.blocks).map OramBlock.identity).Subperm ((h.held leaf).map OramBlock.identity)) :
    stash.overflowCount leaf ≤ h.overflow.length := by
  have depth := ctDepth_of_bounds low high inv.shape.height_le
  obtain ⟨choice, sat, count⟩ := scan_saturated stash (depth ▸ inv.shape.height_le)
  have levels : stash.legalLevels leaf = ((reals stash.blocks).map OramBlock.identity).map
      fun id => deepestSharedLevel leaf id.1 h.height := by
    rw [legalLevels, depth, List.map_map]
    rfl
  have below : ∀ b ∈ stash.legalLevels leaf, b < h.height + 1 := fun b hb => by
    rw [legalLevels, depth] at hb
    obtain ⟨c, -, rfl⟩ := List.mem_map.mp hb
    exact Nat.lt_succ_of_le (deepestSharedLevel_le_height leaf c.tag h.height)
  obtain ⟨t, ht, full⟩ := sat.threshold below
  rw [Finset.sum_const, Finset.card_range, smul_eq_mul] at full
  have fewer : (stash.legalLevels leaf).countP (· < t) ≤
      (h.held leaf).countP fun b => deepestSharedLevel leaf b.tag h.height < t := by
    rw [levels, List.countP_map]
    refine (read.countP_le _).trans (le_of_eq ?_)
    rw [List.countP_map]
    rfl
  have path := path_countP low high inv ht
  rw [held, List.countP_append] at fewer
  have overflow : h.overflow.countP (fun b => deepestSharedLevel leaf b.tag h.height < t) ≤ h.overflow.length :=
    List.countP_le_length
  omega

variable [Add V] [Inhabited V]

theorem mergedStash_subperm (shape : h.Shape) :
    ((reals (h.mergedStash leaf).blocks).map OramBlock.identity).Subperm ((h.held leaf).map OramBlock.identity) := by
  have depth := ctDepth_of_bounds low high shape.height_le
  rw [mergedStash, mergeAccumulateForPath, depth]
  obtain ⟨sorted, perm, -, run⟩ := sortReduce_eq (h.stash.readFromPath h.physicalMemory leaf).blocks
    fun block => pathRankKey block.tag leaf h.height
  rw [run, ← reals_readFromPath shape low high]
  exact (identity_sublist (reduceEqualRuns_fields sorted)).subperm.trans ((reals_perm perm).map _).subperm

/-- Writing back a part of what was read succeeds when the overflow had a free slot, and
leaves at most as many blocks there. -/
theorem writeToPath_occupancy (inv : h.Inv known) {stash : ObliviousStash Z K S V}
    (size : stash.pathSize = h.stash.pathSize) (length : stash.blocks.length = h.stash.blocks.length)
    (sub : (reals stash.blocks).Sublist (reals (h.mergedStash leaf).blocks)) :
    (∀ after memory', stash.writeToPath h.physicalMemory leaf = .ok (after, memory') →
      after.occupancy ≤ h.stash.occupancy) ∧
    (h.stash.occupancy < S → ∃ r, stash.writeToPath h.physicalMemory leaf = .ok r) := by
  have read := (sub.map OramBlock.identity).subperm.trans (mergedStash_subperm low high inv.shape)
  have fewer := overflowCount_le low high inv read
  have slots := inv.shape.slots
  rw [occupancy_eq h.stash]
  constructor
  · intro after memory' run
    obtain ⟨-, -, -, sorted⟩ := mergedStash_spec low high inv.shape
    obtain ⟨A, O, written⟩ := writeToPath_spec low high inv.shape.height_le (size.trans inv.shape.path)
      (by omega) inv.shape.memory (sorted.sublist sub) run
    rw [occupancy_eq, written.overflow, written.spilled, ← ctDepth_of_bounds low high inv.shape.height_le]
    exact fewer
  · intro room
    cases run : stash.writeToPath h.physicalMemory leaf with
    | ok r => exact ⟨r, rfl⟩
    | error e =>
      have full := (writeToPath_error stash h.physicalMemory leaf).mp ⟨e, run⟩
      have : h.overflow.length = (reals h.stash.overflowSlots).length := rfl
      omega

end Held

section Access
variable [Add V] [Inhabited V]

omit [Add V] in
theorem writePath_ok {leaf : TreeIndex} {r : ObliviousStash Z K S V × List (OramBlock K V)}
    (run : h.stash.writeToPath h.physicalMemory leaf = .ok r) :
    h.writePath leaf = .ok { h with stash := r.1, physicalMemory := r.2 } := by
  rw [writePath, run]
  rfl

omit [Add V] [Inhabited V] in
theorem map_isOk {α β : Type} {x : Except Panic α} {a : α} (f : α → β) (run : x = .ok a) :
    ∃ b, (do return f (← x)) = Except.ok b := ⟨f a, by rw [run]; rfl⟩

theorem readDummy_ok (inv : h.Inv known) (room : h.stash.occupancy < S) (draw : Nat) :
    ∃ h', h.readDummy draw = .ok h' := by
  obtain ⟨low, high⟩ := leaf_bounds (Nat.mod_lt draw (Nat.two_pow_pos h.height))
  obtain ⟨size, length, -, -⟩ := mergedStash_spec low high inv.shape
  obtain ⟨r, run⟩ := (writeToPath_occupancy low high inv size length (.refl _)).2 room
  have written : ((h.readPath (leafCount h.height ||| draw % leafCount h.height)).mergePath
    (leafCount h.height ||| draw % leafCount h.height)).writePath (leafCount h.height ||| draw % leafCount h.height) =
      .ok _ := writePath_ok run
  exact map_isOk (fun h => h.updatePeakOverflow) written

theorem readTotal_ok (inv : h.Inv known) (room : h.stash.occupancy < S) (key : List UInt8) :
    ∃ r, h.readTotal key = .ok r := by
  obtain ⟨low, high⟩ := toLeaf_bounds (prfTag h.prf key) inv.shape.height_le
  obtain ⟨size, length, -, -⟩ := mergedStash_spec low high inv.shape
  obtain ⟨size', length', sub⟩ := removeAll_spec (h.mergedStash (toLeaf (prfTag h.prf key) h.height))
    [copyPrefix K key]
  obtain ⟨r, run⟩ := (writeToPath_occupancy low high inv (size'.trans size) (length'.trans length) sub).2 room
  have written : (h.removedPath (toLeaf (prfTag h.prf key) h.height) (copyPrefix K key)).writePath
    (toLeaf (prfTag h.prf key) h.height) = .ok _ := writePath_ok run
  exact map_isOk (fun h' => (((h.mergedStash (toLeaf (prfTag h.prf key) h.height)).readAndRemove
    (copyPrefix K key)).1, h'.updatePeakOverflow)) written

/-- Every path step of the migration succeeds and leaves as much room as it found. -/
theorem migrate_ok (inv : h.Inv known) (room : h.stash.occupancy < S) {height : Nat} (hh : h.height = height)
    {leaves : List Nat} (inside : ∀ i ∈ leaves, i < 2 ^ height) :
    ∃ h', leaves.foldlM (fun h i => ((h.readPath (leafCount height + i)).mergePath
      (leafCount height + i)).writePath (leafCount height + i)) h = .ok h' := by
  induction leaves generalizing h with
  | nil => exact ⟨h, rfl⟩
  | cons i leaves ih =>
    have small := inside i (.head _)
    have low : 2 ^ h.height ≤ leafCount height + i := by rw [hh, leafCount]; omega
    have high : leafCount height + i < 2 ^ (h.height + 1) := by rw [hh, leafCount, Nat.pow_succ]; omega
    obtain ⟨size, length, -, -⟩ := mergedStash_spec low high inv.shape
    have access := writeToPath_occupancy low high inv size length (.refl _)
    obtain ⟨⟨after, memory'⟩, run⟩ := access.2 room
    have written : ((h.readPath (leafCount height + i)).mergePath (leafCount height + i)).writePath
      (leafCount height + i) = .ok _ := writePath_ok run
    have memory : ((h.readPath (leafCount height + i)).mergePath (leafCount height + i)).physicalMemory =
      h.physicalMemory := rfl
    have touched := inv.touch low high memory rfl rfl written
    obtain ⟨h', done⟩ := ih touched.1 ((access.1 after memory' run).trans_lt room) (touched.2.height.trans hh)
      fun j hj => inside j (.tail _ hj)
    refine ⟨h', ?_⟩
    rw [List.foldlM_cons]
    exact (congrArg (fun step => step >>= _) written).trans done

omit [Add V] in
theorem checkAndMaybeResizePostEviction_overflow (shape : h.Shape)
    (run : h.checkAndMaybeResizePostEviction math = .ok h') : h'.overflow = h.overflow := by
  cases checkAndMaybeResizePostEviction_spec run with
  | early same => rw [same]
  | kept _ _ _ _ _ _ _ same =>
    rw [same]
    rfl
  | grown auto _ _ target next _ _ run =>
    have logged : ({ h with autoResize := some next }.log (.signal auto.cSum (some target))).Shape :=
      ⟨shape.1, shape.2, shape.3, shape.4, shape.5, shape.6, shape.7, shape.8⟩
    obtain ⟨m, grown, -, rfl⟩ := applyAutoResizeGrow_spec run
    have kept := growPhysicalStorage_overflow logged grown
    exact kept

theorem grow_error (inv : h.Inv known) (accepted : h.Accepted math) (room : h.stash.occupancy < S) {e : Panic}
    (run : h.grow math = .error e) : e = .growPastMaxTreeHeight := by
  cases grown : h.growPhysicalStorage with
  | error e' =>
    rw [grow, grown] at run
    have same : e' = e := Except.error.inj run
    rw [growPhysicalStorage] at grown
    split at grown
    · simp at grown
    · rw [← same]
      exact (Except.error.inj grown).symm
  | ok g =>
    rw [grow_of_accepted grown (accepted.grow grown)] at run
    have ginv : (g.regrown math).logGrown.Inv known := (inv.grow grown).congr rfl rfl rfl
    have overflow : g.overflow = h.overflow := growPhysicalStorage_overflow inv.shape grown
    obtain ⟨h', done⟩ := migrate_ok ginv (show g.stash.occupancy < S by
      rw [occupancy_eq] at room ⊢
      exact (congrArg List.length overflow).trans_lt room) rfl fun i hi => List.mem_range.mp hi
    exact absurd (run.symm.trans done) (by simp)

/-- After an eviction an overflow slot is free. -/
theorem evictAfterInsert_occupancy (inv : h.Inv known) (run : h.evictAfterInsert math = .ok h') :
    h'.stash.occupancy < S := by
  obtain ⟨g, written, check⟩ := evictAfterInsert_spec run
  obtain ⟨low, high⟩ := evictLeafAt_bounds inv.shape.height_le h.evictCtr
  have prep := evictPrepared_spec h
  obtain ⟨ginv, access⟩ := inv.touch low high prep.memory prep.stash prep.height written
  have peak : g.updatePeakOverflow.overflow = g.overflow := by
    rw [updatePeakOverflow]
    split <;> rfl
  have shape := (updatePeakOverflow_reshuffle g).inv ginv
  rw [occupancy_eq]
  exact (congrArg List.length ((checkAndMaybeResizePostEviction_overflow shape.shape check).trans peak)).trans_lt
    access.sentinel

end Access

section Visited
variable [Add V] [Inhabited V]

/-- The states of all runs of a new tree, those inside an operation included: after
the insertion of a slot or of a chunk, and after an eviction. -/
inductive Visited (math : ResizeMath) (cap : Nat) (prf : Aes128) : ObliviousHistogram Z K A S V → Prop
  | new {h : ObliviousHistogram Z K A S V} (start : new cap prf = .ok h) : Visited math cap prf h
  | step {h h' : ObliviousHistogram Z K A S V} {op : TreeOp K V} {out : Option V}
      (before : Visited math cap prf h) (run : h.step math op = .ok (out, h')) : Visited math cap prf h'
  | inserted {h : ObliviousHistogram Z K A S V} {tag : UInt64} {val : V} {payload : Vector UInt8 K}
      {stash : ObliviousStash Z K S V} (before : Visited math cap prf h)
      (run : h.stash.insert tag h.epoch val payload = .ok stash) :
      Visited math cap prf ({ { h with stash }.logStored tag payload with
        appendCtr := ({ h with stash }.logStored tag payload).appendCtr + 1 }.log .slot)
  | chunk {h : ObliviousHistogram Z K A S V} {updates : List (PreparedUpdate K V)}
      {stash : ObliviousStash Z K S V} (before : Visited math cap prf h)
      (run : h.stash.insertBatch (updates.map fun u => (u.1, h.epoch, u.2.1, u.2.2.1, u.2.2.2)) = .ok stash) :
      Visited math cap prf ({ h with stash, appendCtr := h.appendCtr + updates.length }.logSlots updates)
  | evicted {h h' : ObliviousHistogram Z K A S V} (before : Visited math cap prf h)
      (run : h.evictAfterInsert math = .ok h') : Visited math cap prf h'

theorem Visited.inv {cap : Nat} {prf : Aes128} (visited : Visited math cap prf h) : h.Inv fun _ => True := by
  induction visited with
  | new start => exact (new_spec start).1
  | step _ run ih => exact (step_inv ih (fun _ _ => trivial) run).1
  | inserted _ run ih => exact (insert_step ih (fun _ => trivial) run).1.congr rfl rfl rfl
  | chunk _ run ih => exact (batchChunk_step ih (fun _ _ _ _ => trivial) run _).1
  | evicted _ run ih => exact (evictAfterInsert_reshuffle ih.shape.height_le run).inv ih

/-- An alpha that has been configured stays accepted. -/
theorem Visited.accepted {cap : Nat} {prf : Aes128} (visited : Visited math cap prf h) : h.Accepted math := by
  induction visited with
  | new start =>
    intro auto enabled
    obtain ⟨(inv : Inv (fun _ => True) _), -, -, -, none⟩ := new_spec start
    exact absurd (none.symm.trans enabled) (by simp)
  | step before run ih => exact ih.step before.inv run
  | inserted _ _ ih => exact ih.of_eq rfl
  | chunk _ _ ih => exact ih.of_eq rfl
  | evicted _ run ih => exact ih.evict run

end Visited
end ObliviousHistogram

/-- A path access leaves at most as many blocks in the overflow as there were. With a
free overflow slot, and every eviction leaves one, no read and no path step of a
manual growth can overflow the stash. -/
theorem path_access_occupancy [Add V] [Inhabited V] {cap : Nat} {prf : Aes128} {h : ObliviousHistogram Z K A S V}
    (visited : Visited math cap prf h) :
    (∀ leaf, 2 ^ h.height ≤ leaf → leaf < 2 ^ (h.height + 1) → ∀ stash memory',
      ((h.stash.readFromPath h.physicalMemory leaf).mergeAccumulateForPath leaf).writeToPath h.physicalMemory leaf =
        .ok (stash, memory') → stash.occupancy ≤ h.stash.occupancy) ∧
    (h.stash.occupancy < S → (∀ key, ∃ r, h.readTotal key = .ok r) ∧ (∀ draw, ∃ h', h.readDummy draw = .ok h') ∧
      ∀ e, h.grow math = .error e → e = .growPastMaxTreeHeight) ∧
    ∀ h', h.evictAfterInsert math = .ok h' → h'.stash.occupancy < S := by
  have inv := visited.inv
  refine ⟨fun leaf low high stash memory' run => ?_, fun room => ⟨readTotal_ok inv room, readDummy_ok inv room,
    fun e => grow_error inv visited.accepted room⟩, fun h' => evictAfterInsert_occupancy inv⟩
  obtain ⟨size, length, -, -⟩ := mergedStash_spec low high inv.shape
  exact (writeToPath_occupancy low high inv size length (.refl _)).1 stash memory' run

/-- One append without an eviction fills the only overflow slot but one. -/
theorem path_access_occupancy_append : ∃ h : ObliviousHistogram 1 1 2 2 Nat,
    Visited .constant 2 id h ∧ h.stash.occupancy < 2 ∧ (∀ key, ∃ r, h.readTotal key = .ok r) ∧
      ∀ h', h.evictAfterInsert .constant = .ok h' → h'.stash.occupancy < 2 := by
  have run : ((runNew .constant 2 id [.append [1] 5] : Except Panic (List (Option Nat) ×
      ObliviousHistogram 1 1 2 2 Nat)).toOption.map fun r => r.2.stash.occupancy) = some 1 := by decide +kernel
  cases ran : (runNew .constant 2 id [.append [1] 5] : Except Panic (List (Option Nat) ×
      ObliviousHistogram 1 1 2 2 Nat)) with
  | error e => simp [ran, Except.toOption] at run
  | ok r =>
    rw [ran] at run
    have one : r.2.stash.occupancy = 1 := Option.some.inj run
    obtain ⟨h₀, start, ran⟩ := bind_ok ran
    obtain ⟨out, outs', g, step, last, -⟩ := run_cons ran
    simp only [ObliviousHistogram.run, Except.ok.injEq, Prod.mk.injEq] at last
    have visited : Visited .constant 2 id r.2 := last.2 ▸ (Visited.new start).step step
    obtain ⟨-, reads, evicts⟩ := path_access_occupancy visited
    exact ⟨r.2, visited, by omega, (reads (by omega)).1, evicts⟩

end Roga
