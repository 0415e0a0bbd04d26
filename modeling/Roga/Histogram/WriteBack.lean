import Roga.Histogram.RunProofs
import Roga.Histogram.StashProofs
import Roga.Slots.Placement

/-! What `write_to_path` owes its callers: blocks at legal levels, none lost, and
no more of them left in the overflow than any legal placement leaves. -/
namespace Roga
open Ct Reals ObliviousStash
variable {Z K S : Nat} {V : Type}

section Legal

/-- A write-back keeps every real block, at a level its tag allows, and touches its path only. -/
structure WriteBack (Z position height : Nat) (before : ObliviousStash Z K S V) (memory : List (OramBlock K V))
    (after : ObliviousStash Z K S V) (memory' : List (OramBlock K V)) : Prop where
  kept : ((List.range (height + 1)).flatMap (fun depth =>
    reals (bucketAt Z memory' (ctNodeOnPath position depth height))) ++ reals after.overflowSlots).Perm
      (reals before.blocks)
  legal : ∀ depth ≤ height, ∀ b ∈ bucketAt Z memory' (ctNodeOnPath position depth height), b.isReal = true →
    depth ≤ deepestSharedLevel position b.tag height
  frame : ∀ n, (∀ depth ≤ height, n ≠ ctNodeOnPath position depth height) →
    bucketAt Z memory' n = bucketAt Z memory n
  path_region : ∀ b ∈ after.blocks.take after.pathSize, b.isReal = false
  free : ∃ b ∈ after.overflowSlots, b.isReal = false

theorem Written.writeBack {position height : Nat} {before after : ObliviousStash Z K S V}
    {memory memory' : List (OramBlock K V)} {A : Nat → List (OramBlock K V)} {O : List (OramBlock K V)}
    (low : 2 ^ height ≤ position) (high : position < 2 ^ (height + 1)) (hh : height ≤ 31)
    (written : Written Z height position before memory after memory' A O) :
    WriteBack Z position height before memory after memory' := by
  refine ⟨?_, fun depth hd b hb real => ?_, written.frame, written.path_region, ?_⟩
  · rw [written.order, layout_eq, written.overflow]
    refine List.Perm.append_right _ ?_
    have path : ∀ depth ∈ List.range (height + 1),
        reals (bucketAt Z memory' (ctNodeOnPath position depth height)) = A depth := fun depth hd =>
      written.path depth (Nat.lt_succ_iff.mp (List.mem_range.mp hd))
    rw [List.flatMap_congr path]
    exact (List.reverse_perm _).symm.flatMap_right A
  · have here : b ∈ A depth := written.path depth hd ▸ mem_reals.mpr ⟨hb, real⟩
    exact (le_deepestSharedLevel b.tag low high hh hd).mpr (written.legal depth hd b here)
  · by_contra none
    have full : reals after.overflowSlots = after.overflowSlots := reals_eq_self fun b hb => by
      by_contra dummy
      exact none ⟨b, hb, by simpa using dummy⟩
    have slots := congrArg List.length (full.symm.trans written.overflow)
    rw [overflowSlots, List.length_drop, written.length, written.pathSize] at slots
    have := written.sentinel
    omega

variable [Add V] [Inhabited V]

/-- Payloads taken out of a merged stash, one after the other. -/
def removeAll (stash : ObliviousStash Z K S V) (payloads : List (Vector UInt8 K)) : ObliviousStash Z K S V :=
  payloads.foldl (fun stash payload => (stash.readAndRemove payload).2.2) stash

omit [Add V] in
/-- Removing turns blocks into dummies where they are. -/
theorem removeAll_spec (stash : ObliviousStash Z K S V) (payloads : List (Vector UInt8 K)) :
    (removeAll stash payloads).pathSize = stash.pathSize ∧
      (removeAll stash payloads).blocks.length = stash.blocks.length ∧
      (reals (removeAll stash payloads).blocks).Sublist (reals stash.blocks) := by
  induction payloads generalizing stash with
  | nil => exact ⟨rfl, rfl, .refl _⟩
  | cons payload payloads ih =>
    obtain ⟨size, length, sub⟩ := ih (stash.readAndRemove payload).2.2
    have blocks : (stash.readAndRemove payload).2.2.blocks = stash.blocks.map
        fun b => if removed payload b then { b with tag := 0 } else b := readAndRemoveLoop_blocks payload _ _ _
    refine ⟨size, ?_, ?_⟩
    · rw [removeAll, List.foldl_cons]
      exact length.trans (by rw [blocks, List.length_map])
    · rw [blocks, reals_removed] at sub
      exact sub.trans List.filter_sublist

/-- After a merge for a leaf, and removals, writing back to its path is legal and loses nothing. -/
theorem writeToPath_writeBack {position height : Nat} (low : 2 ^ height ≤ position)
    (high : position < 2 ^ (height + 1)) (hh : height ≤ 31) {stash : ObliviousStash Z K S V}
    (path : stash.pathSize = Z * (height + 1)) (slots : stash.blocks.length = stash.pathSize + S)
    {memory : List (OramBlock K V)} (size : memory.length = 2 ^ (height + 1) * Z) (payloads : List (Vector UInt8 K))
    {after : ObliviousStash Z K S V} {memory' : List (OramBlock K V)}
    (run : (removeAll (stash.mergeAccumulateForPath position) payloads).writeToPath memory position =
      .ok (after, memory')) :
    WriteBack Z position height (removeAll (stash.mergeAccumulateForPath position) payloads) memory after memory' := by
  obtain ⟨pathSize, length, sub⟩ := removeAll_spec (stash.mergeAccumulateForPath position) payloads
  have merged := sortReduce_merged stash.blocks position hh
  have blocks : (stash.mergeAccumulateForPath position).blocks =
      sortReduce stash.blocks fun block => pathRankKey block.tag position height := by
    rw [mergeAccumulateForPath, ctDepth_of_bounds low high hh]
  rw [blocks] at length sub
  rw [merged.length] at length
  obtain ⟨A, O, written⟩ := writeToPath_spec low high hh (pathSize.trans path)
    (by rw [length, pathSize]; show stash.pathSize ≤ _; omega) size (merged.sorted.sublist sub) run
  exact written.writeBack low high hh

/-- Two slots of path, one real block and one that a read takes out. -/
def twoBlocks : ObliviousStash 1 1 2 Nat where
  blocks := [OramBlock.dummy, OramBlock.dummy, ⟨1, 0, 5, .replicate 1 1⟩, ⟨2, 0, 6, .replicate 1 2⟩]
  pathSize := 2

theorem writeToPath_writeBack_two : ∃ (after : ObliviousStash 1 1 2 Nat) (memory' : List (OramBlock 1 Nat)),
    (removeAll (twoBlocks.mergeAccumulateForPath 2) [#v[2]]).writeToPath (List.replicate 4 OramBlock.dummy) 2 =
        .ok (after, memory') ∧
      WriteBack 1 2 1 (removeAll (twoBlocks.mergeAccumulateForPath 2) [#v[2]]) (List.replicate 4 OramBlock.dummy)
        after memory' := by
  have run : ((removeAll (twoBlocks.mergeAccumulateForPath 2) [#v[2]]).writeToPath
    (List.replicate 4 OramBlock.dummy) 2).toBool = true := by decide +kernel
  obtain ⟨⟨after, memory'⟩, run⟩ := exists_of_toBool run
  exact ⟨after, memory', run, writeToPath_writeBack (by decide) (by decide) (by decide) rfl rfl rfl _ run⟩

end Legal

section Optimal

/-- `overflow_count` as `write_to_path` computes it. -/
def ObliviousStash.overflowCount (stash : ObliviousStash Z K S V) (position : TreeIndex) : Nat :=
  (stash.blocks.foldl (assignBlock Z position (ctDepth position)) (List.replicate 32 0, 0)).2

/-- The deepest legal level of each real block on the path of `position`. -/
def ObliviousStash.legalLevels (stash : ObliviousStash Z K S V) (position : TreeIndex) : List Nat :=
  (reals stash.blocks).map fun b => deepestSharedLevel position b.tag (ctDepth position)

/-- The counters of the scan are those of a saturated placement. -/
structure Scanned (Z height : Nat) (bounds : List Nat) (choice : List (Option Nat)) (state : List Nat × Nat) :
    Prop where
  tracked : height < state.1.length
  counts : ∀ l ≤ height, state.1.getD l 0 = choice.count (some l)
  overflow : state.2 = choice.count none
  saturated : Saturated (fun _ => Z) bounds choice

theorem Scanned.step {position height : Nat} {bounds : List Nat} {choice : List (Option Nat)}
    {state : List Nat × Nat} (scanned : Scanned Z height bounds choice state) {b : OramBlock K V}
    (hr : b.isReal = true) (hb : deepestSharedLevel position b.tag height ≤ height) :
    ∃ place, Scanned Z height (bounds ++ [deepestSharedLevel position b.tag height]) (choice ++ [place])
      (assignBlock Z position height state b) := by
  rw [assignBlock_real hr]
  cases found : chooseLevel Z height state.1 (deepestSharedLevel position b.tag height) with
  | none =>
    refine ⟨none, scanned.tracked, fun l hl => ?_, ?_, scanned.saturated.snoc_none fun l hl => ?_⟩
    · rw [scanned.counts l hl]
      simp
    · simp [scanned.overflow]
    · refine Nat.le_antisymm (scanned.saturated.room l) ?_
      rw [← scanned.counts l (hl.trans hb)]
      exact chooseLevel_none found l (hl.trans hb) hl
  | some place =>
    obtain ⟨inside, level, free, deeper⟩ := chooseLevel_some found
    refine ⟨some place, ?_, fun l hl => ?_, ?_, scanned.saturated.snoc_some level ?_ fun l above hl => ?_⟩
    · simpa using scanned.tracked
    · rw [List.count_append, ← scanned.counts l hl, List.getD_eq_getElem?_getD, List.getElem?_set]
      by_cases same : place = l
      · subst same
        rw [if_pos rfl, if_pos (hl.trans_lt scanned.tracked)]
        simp
      · rw [if_neg same, ← List.getD_eq_getElem?_getD]
        simp [same]
    · simp [scanned.overflow]
    · exact scanned.counts place inside ▸ free
    · refine Nat.le_antisymm (scanned.saturated.room l) ?_
      rw [← scanned.counts l (hl.trans hb)]
      exact deeper l above hl (hl.trans hb)

theorem Scanned.run {position height : Nat} {bounds : List Nat} {choice : List (Option Nat)}
    {state : List Nat × Nat} (scanned : Scanned Z height bounds choice state) (blocks : List (OramBlock K V))
    (hb : ∀ b ∈ reals blocks, deepestSharedLevel position b.tag height ≤ height) :
    ∃ choice', Scanned Z height (bounds ++ (reals blocks).map fun b => deepestSharedLevel position b.tag height)
      choice' (blocks.foldl (assignBlock Z position height) state) := by
  induction blocks generalizing bounds choice state with
  | nil => exact ⟨choice, by simpa using scanned⟩
  | cons b blocks ih =>
    rw [List.foldl_cons]
    cases hr : b.isReal with
    | false =>
      rw [reals_cons_dummy hr] at hb ⊢
      rw [assignBlock_dummy hr]
      exact ih scanned hb
    | true =>
      rw [reals_cons_real hr] at hb ⊢
      obtain ⟨place, next⟩ := scanned.step hr (hb b (.head _))
      obtain ⟨choice', done⟩ := ih next fun c hc => hb c (.tail _ hc)
      refine ⟨choice', ?_⟩
      rwa [List.append_assoc] at done

theorem deepestSharedLevel_le_height (position : TreeIndex) (tag : UInt64) (height : Nat) :
    deepestSharedLevel position tag height ≤ height := by
  rw [deepestSharedLevel, leadingZeros]
  omega

/-- The scan of the whole stash, whatever the order of its blocks. -/
theorem scan_saturated (stash : ObliviousStash Z K S V) {position : TreeIndex} (hh : ctDepth position ≤ 31) :
    ∃ choice, Saturated (fun _ => Z) (stash.legalLevels position) choice ∧
      stash.overflowCount position = choice.count none := by
  have start : Scanned Z (ctDepth position) [] [] (List.replicate 32 0, 0) := by
    refine ⟨?_, fun l hl => ?_, rfl, .nil _⟩
    · rw [List.length_replicate]
      exact Nat.lt_succ_of_le hh
    · rw [List.getD_eq_getElem?_getD, List.getElem?_replicate, if_pos (Nat.lt_succ_of_le (hl.trans hh))]
      rfl
  obtain ⟨choice, done⟩ := start.run stash.blocks fun b _ => deepestSharedLevel_le_height position b.tag _
  exact ⟨choice, done.saturated, done.overflow⟩

theorem writeToPath_error [Inhabited V] (stash : ObliviousStash Z K S V) (memory : List (OramBlock K V))
    (position : TreeIndex) : (∃ e, stash.writeToPath memory position = .error e) ↔
      stash.blocks.length - stash.pathSize ≤ stash.overflowCount position := by
  rw [writeToPath, overflowCount]
  simp only
  split
  · rename_i full
    exact ⟨fun _ => full, fun _ => ⟨_, rfl⟩⟩
  · rename_i room
    constructor
    · rintro ⟨e, h⟩
      simp at h
    · intro full
      exact absurd full room

/-- No legal placement of the real stash blocks on the path leaves out fewer of
them, and writing back panics exactly when each leaves out at least `S`. -/
theorem overflowCount_isLeast [Inhabited V] (stash : ObliviousStash Z K S V)
    (slots : stash.blocks.length = stash.pathSize + S) {position : TreeIndex} (hposition : position < 2 ^ 32) :
    IsLeast {n | ∃ choice, Legal (fun _ => Z) (stash.legalLevels position) choice ∧ choice.count none = n}
        (stash.overflowCount position) ∧
      ∀ memory, (∃ e, stash.writeToPath memory position = .error e) ↔
        ∀ choice, Legal (fun _ => Z) (stash.legalLevels position) choice → S ≤ choice.count none := by
  obtain ⟨choice, sat, count⟩ := scan_saturated stash (ctDepth_le hposition)
  refine ⟨count ▸ sat.isLeast, fun memory => ?_⟩
  rw [writeToPath_error, slots, Nat.add_sub_cancel_left, count]
  constructor
  · exact fun full choice' legal => full.trans (sat.count_none_le legal)
  · exact fun all => all choice sat.toLegal

theorem overflowCount_isLeast_two :
    IsLeast {n | ∃ choice, Legal (fun _ => 1) (twoBlocks.legalLevels 2) choice ∧ choice.count none = n}
        (twoBlocks.overflowCount 2) ∧
      ∀ memory, (∃ e, twoBlocks.writeToPath memory 2 = .error e) ↔
        ∀ choice, Legal (fun _ => 1) (twoBlocks.legalLevels 2) choice → 2 ≤ choice.count none :=
  overflowCount_isLeast twoBlocks rfl (by decide)

end Optimal
end Roga
