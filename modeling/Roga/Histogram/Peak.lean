import Roga.Histogram.Occupancy

/-! The reported peak of the overflow. Reads and evictions refresh it, growths leave
the overflow alone; only an insert that no eviction follows can pass it by. -/
namespace Roga
open Ct Reals ObliviousStash ObliviousHistogram
variable {Z K A S : Nat} {V : Type} {math : ResizeMath}

namespace ObliviousHistogram
variable {known : UInt64 × Vector UInt8 K → Prop} {h h' g : ObliviousHistogram Z K A S V}

/-- The reported peak is no lower than the occupancy. -/
def Covered (h : ObliviousHistogram Z K A S V) : Prop := h.stash.occupancy ≤ h.peakOverflow

theorem updatePeakOverflow_covered (h : ObliviousHistogram Z K A S V) :
    h.updatePeakOverflow.Covered ∧ h.peakOverflow ≤ h.updatePeakOverflow.peakOverflow := by
  rw [updatePeakOverflow]
  split
  · rename_i above
    exact ⟨Nat.le_refl _, Nat.le_of_lt above⟩
  · rename_i within
    exact ⟨Nat.le_of_not_lt within, Nat.le_refl _⟩

section Steps
variable [Add V] [Inhabited V]

omit [Add V] in
theorem applyAutoResizeGrow_peak (shape : h.Shape) {target : Nat}
    (run : h.applyAutoResizeGrow math target = .ok h') :
    h'.stash.occupancy = h.stash.occupancy ∧ h'.peakOverflow = h.peakOverflow := by
  obtain ⟨g, grown, -, rfl⟩ := applyAutoResizeGrow_spec run
  have overflow : g.overflow = h.overflow := growPhysicalStorage_overflow shape grown
  rw [occupancy_eq, occupancy_eq]
  refine ⟨congrArg List.length overflow, ?_⟩
  rw [growPhysicalStorage] at grown
  split at grown
  · rw [Except.ok.injEq] at grown
    rw [← grown]
    rfl
  · simp at grown

omit [Add V] in
theorem checkAndMaybeResizePostEviction_peak (shape : h.Shape)
    (run : h.checkAndMaybeResizePostEviction math = .ok h') :
    h'.stash.occupancy = h.stash.occupancy ∧ h'.peakOverflow = h.peakOverflow := by
  have overflow : h'.overflow = h.overflow := checkAndMaybeResizePostEviction_overflow shape run
  rw [occupancy_eq, occupancy_eq]
  refine ⟨congrArg List.length overflow, ?_⟩
  cases checkAndMaybeResizePostEviction_spec run with
  | early same => rw [same]
  | kept _ _ _ _ _ _ _ same =>
    rw [same]
    rfl
  | grown auto _ _ target next _ _ run =>
    have logged : ({ h with autoResize := some next }.log (.signal auto.cSum (some target))).Shape :=
      ⟨shape.1, shape.2, shape.3, shape.4, shape.5, shape.6, shape.7, shape.8⟩
    exact (applyAutoResizeGrow_peak logged run).2

/-- An eviction refreshes the peak. -/
theorem evictAfterInsert_covered (inv : h.Inv known) (run : h.evictAfterInsert math = .ok h') :
    h'.Covered ∧ h.peakOverflow ≤ h'.peakOverflow := by
  obtain ⟨g, written, check⟩ := evictAfterInsert_spec run
  obtain ⟨low, high⟩ := evictLeafAt_bounds inv.shape.height_le h.evictCtr
  have prep := evictPrepared_spec h
  have ginv := (inv.touch low high prep.memory prep.stash prep.height written).1
  obtain ⟨occupancy, peak⟩ := checkAndMaybeResizePostEviction_peak ((updatePeakOverflow_reshuffle g).inv ginv).shape check
  obtain ⟨covered, higher⟩ := updatePeakOverflow_covered g
  have kept : g.peakOverflow = h.peakOverflow := by
    rw [(writePath_fields written).2]
    change h.evictPrepared.peakOverflow = _
    rw [evictPrepared]
    split
    · rw [accumulateResizeAccounting]
      split <;> rfl
    · rw [accumulateResizeAccounting]
      split <;> rfl
  rw [Covered, occupancy, peak]
  exact ⟨covered, kept ▸ higher⟩

theorem readPreparedTotal_covered {tag : UInt64} {payload : Vector UInt8 K} {v : V}
    (run : h.readPreparedTotal tag payload = .ok (v, h')) : h'.Covered ∧ h.peakOverflow ≤ h'.peakOverflow := by
  obtain ⟨-, g, written, rfl⟩ := readPreparedTotal_spec run
  obtain ⟨covered, higher⟩ := updatePeakOverflow_covered g
  have kept : g.peakOverflow = h.peakOverflow := by rw [(writePath_fields written).2]; rfl
  exact ⟨covered, kept ▸ higher⟩

theorem readDummy_covered {draw : Nat} (run : h.readDummy draw = .ok h') :
    h'.Covered ∧ h.peakOverflow ≤ h'.peakOverflow := by
  obtain ⟨g, written, run⟩ := bind_ok run
  simp only [pure, Except.pure, Except.ok.injEq] at run
  subst run
  obtain ⟨covered, higher⟩ := updatePeakOverflow_covered g
  have kept : g.peakOverflow = h.peakOverflow := by rw [(writePath_fields written).2]; rfl
  exact ⟨covered, kept ▸ higher⟩

/-- The path steps of the migration lower the occupancy or keep it, and do not look at the peak. -/
theorem migrate_peak (inv : h.Inv known) {height : Nat} (hh : h.height = height) {leaves : List Nat}
    (inside : ∀ i ∈ leaves, i < 2 ^ height)
    (run : leaves.foldlM (fun h i => ((h.readPath (leafCount height + i)).mergePath
      (leafCount height + i)).writePath (leafCount height + i)) h = .ok h') :
    h'.stash.occupancy ≤ h.stash.occupancy ∧ h'.peakOverflow = h.peakOverflow := by
  induction leaves generalizing h with
  | nil =>
    simp only [List.foldlM_nil, pure, Except.pure, Except.ok.injEq] at run
    exact run ▸ ⟨Nat.le_refl _, rfl⟩
  | cons i leaves ih =>
    rw [List.foldlM_cons] at run
    obtain ⟨m, step, run⟩ := bind_ok run
    have small := inside i (.head _)
    have low : 2 ^ h.height ≤ leafCount height + i := by rw [hh, leafCount]; omega
    have high : leafCount height + i < 2 ^ (h.height + 1) := by rw [hh, leafCount, Nat.pow_succ]; omega
    obtain ⟨size, length, -, -⟩ := mergedStash_spec low high inv.shape
    obtain ⟨written, fields⟩ := writePath_fields step
    have lower := (writeToPath_occupancy low high inv size length (.refl _)).1 _ _ written
    have memory : ((h.readPath (leafCount height + i)).mergePath (leafCount height + i)).physicalMemory =
      h.physicalMemory := rfl
    obtain ⟨minv, touched⟩ := inv.touch low high memory rfl rfl step
    obtain ⟨lower', peak⟩ := ih minv (touched.height.trans hh) (fun j hj => inside j (.tail _ hj)) run
    have kept : m.peakOverflow = h.peakOverflow := by rw [fields]; rfl
    exact ⟨lower'.trans lower, peak.trans kept⟩

theorem grow_peak (inv : h.Inv known) (run : h.grow math = .ok h') :
    h'.stash.occupancy ≤ h.stash.occupancy ∧ h'.peakOverflow = h.peakOverflow := by
  obtain ⟨g, grown, accepted, run⟩ := grow_spec run
  have first := applyAutoResizeGrow_peak inv.shape (applyAutoResizeGrow_of_accepted grown accepted 0)
  have ginv : (g.regrown math).logGrown.Inv known := (inv.grow grown).congr rfl rfl rfl
  obtain ⟨lower, peak⟩ := migrate_peak ginv rfl (fun i hi => List.mem_range.mp hi) run
  exact ⟨lower.trans_eq first.1, peak.trans first.2⟩

omit [Add V] in
theorem applyDeferredAutoResizeGrow_peak (shape : h.Shape) {target : Nat}
    (run : h.applyDeferredAutoResizeGrow math target = .ok h') :
    h'.stash.occupancy = h.stash.occupancy ∧ h'.peakOverflow = h.peakOverflow := by
  obtain ⟨-, grown⟩ := applyDeferredAutoResizeGrow_spec run
  have reset : ({ h with autoResize := h.autoResize.map AutoResizeState.resetCounters } :
      ObliviousHistogram Z K A S V).Shape :=
    ⟨shape.1, shape.2, shape.3, shape.4, shape.5, shape.6, shape.7, shape.8⟩
  have peak := applyAutoResizeGrow_peak reset grown
  exact ⟨peak.1, peak.2⟩

omit [Add V] [Inhabited V] in
theorem configureAutoResize_peak {cfg : AutoResizeConfig} {deferChecks emits : Bool}
    (run : h.configureAutoResize math cfg deferChecks emits = .ok h') :
    h'.stash = h.stash ∧ h'.peakOverflow = h.peakOverflow := by
  obtain ⟨sampler, -, -, rfl⟩ := configureAutoResize_spec run
  exact ⟨rfl, rfl⟩

omit [Add V] [Inhabited V] in
theorem takeDeferredAutoResizeSignal_peak {signal : Option Nat}
    (run : h.takeDeferredAutoResizeSignal = .ok (signal, h')) :
    h'.stash = h.stash ∧ h'.peakOverflow = h.peakOverflow := by
  obtain ⟨-, -, -, -, -, rfl⟩ := takeDeferredAutoResizeSignal_spec run
  exact ⟨rfl, rfl⟩

end Steps

section Inserts
variable [Add V] [Inhabited V]

/-- The unmasked updates with a real tag. -/
def realUpdates (updates : List (PreparedUpdate K V)) : Nat :=
  updates.countP fun u => decide (u.2.2.2 &&& 1 ≠ 0) && decide (u.1 ≠ 0)

omit [Add V] in
theorem reals_prepared (epoch : UInt8) (updates : List (PreparedUpdate K V)) :
    (reals (updates.map (preparedBlock epoch))).length = realUpdates updates := by
  rw [reals, ← List.countP_eq_length_filter, List.countP_map, realUpdates]
  congr 1
  funext u
  have real : (OramBlock.mk u.1 epoch u.2.1 u.2.2.1).isReal = decide (u.1 ≠ 0) := by
    rw [Bool.eq_iff_iff, decide_eq_true_eq]
    exact OramBlock.isReal_iff
  rw [Function.comp_apply, preparedBlock, updateBlock_eq, ← real]
  by_cases on : u.2.2.2 &&& 1 ≠ 0
  · rw [if_pos (by simpa using on), decide_eq_true on, Bool.true_and]
  · rw [if_neg (by simpa using on), decide_eq_false on, Bool.false_and]
    rfl

/-- The last chunk of a batch when no eviction follows it, and the state it finds. -/
inductive OpenEnd (math : ResizeMath) : ObliviousHistogram Z K A S V → List (PreparedUpdate K V) →
    ObliviousHistogram Z K A S V → List (PreparedUpdate K V) → Prop
  | chunk {h : ObliviousHistogram Z K A S V} {updates : List (PreparedUpdate K V)} (some : updates ≠ [])
      (early : ¬ h.currentEvictInterval ∣ h.appendCtr + h.chunkLen h.currentEvictInterval updates.length) :
      OpenEnd math h updates h (updates.take (h.chunkLen h.currentEvictInterval updates.length))
  | evicted {h e g : ObliviousHistogram Z K A S V} {updates rest : List (PreparedUpdate K V)}
      {stash : ObliviousStash Z K S V} (some : updates ≠ [])
      (due : h.currentEvictInterval ∣ h.appendCtr + h.chunkLen h.currentEvictInterval updates.length)
      (inserted : h.stash.insertBatch ((updates.take (h.chunkLen h.currentEvictInterval updates.length)).map fun u =>
        (u.1, h.epoch, u.2.1, u.2.2.1, u.2.2.2)) = .ok stash)
      (run : (({ h with stash, appendCtr := h.appendCtr + h.chunkLen h.currentEvictInterval updates.length } :
        ObliviousHistogram Z K A S V).logSlots (updates.take (h.chunkLen h.currentEvictInterval
          updates.length))).evictAfterInsert math = .ok e)
      (later : OpenEnd math e (updates.drop (h.chunkLen h.currentEvictInterval updates.length)) g rest) :
      OpenEnd math h updates g rest

/-- An insert that an eviction follows, or for which there is room below the reported peak. -/
def WithinPeak (math : ResizeMath) (h : ObliviousHistogram Z K A S V) : TreeOp K V → Prop
  | .append key _ => h.currentEvictInterval ∣ h.appendCtr + 1 ∨
      h.stash.occupancy + (if prfTag h.prf key = 0 then 0 else 1) ≤ h.peakOverflow
  | .appendBatch updates => ∀ g chunk, OpenEnd math h updates g chunk →
      g.stash.occupancy + realUpdates chunk ≤ g.peakOverflow
  | _ => True

theorem append_covered (inv : h.Inv fun _ => True) {key : List UInt8} {val : V} (run : h.append math key val = .ok h') :
    (h'.Covered ↔ h.currentEvictInterval ∣ h.appendCtr + 1 ∨
      h.stash.occupancy + (if prfTag h.prf key = 0 then 0 else 1) ≤ h.peakOverflow) ∧
    h.peakOverflow ≤ h'.peakOverflow := by
  obtain ⟨stash, inserted, run⟩ := bind_ok run
  obtain ⟨-, -, -, added⟩ := insert_spec _ _ _ _ (by rw [inv.shape.slots]; omega) inserted
  let stored := ({ h with stash } : ObliviousHistogram Z K A S V).logStored (prfTag h.prf key) (copyPrefix K key)
  let m : ObliviousHistogram Z K A S V :=
    ({ stored with appendCtr := stored.appendCtr + 1 } : ObliviousHistogram Z K A S V).log .slot
  have minv : m.Inv fun _ => True := (insert_step inv (fun _ => trivial) inserted).1.congr rfl rfl rfl
  change (if m.currentEvictInterval ∣ m.appendCtr then m.evictAfterInsert math else .ok m) = _ at run
  split at run
  · rename_i due
    obtain ⟨covered, higher⟩ := evictAfterInsert_covered minv run
    exact ⟨iff_of_true covered (.inl due), higher⟩
  · rename_i early
    simp only [Except.ok.injEq] at run
    subst run
    refine ⟨?_, Nat.le_refl _⟩
    have one : (reals [(⟨prfTag h.prf key, h.epoch, val, copyPrefix K key⟩ : OramBlock K V)]).length =
        if prfTag h.prf key = 0 then 0 else 1 := by
      split
      · rename_i zero
        rw [zero]
        rfl
      · rename_i real
        rw [reals_cons_real (OramBlock.isReal_iff.mpr real)]
        rfl
    have occupancy : stash.occupancy = h.stash.occupancy + if prfTag h.prf key = 0 then 0 else 1 := by
      rw [occupancy_eq, occupancy_eq, added.length_eq, List.length_append, one, Nat.add_comm]
    rw [Covered, ← occupancy]
    exact ⟨.inr, fun either => either.resolve_left early⟩

omit [Add V] [Inhabited V] in
/-- A chunk that leaves some of the batch over ends with an eviction. -/
theorem chunkLen_due {period remaining : Nat} (pos : period ≠ 0) (short : h.chunkLen period remaining < remaining) :
    period ∣ h.appendCtr + h.chunkLen period remaining := by
  have below := Nat.mod_lt h.appendCtr (Nat.pos_of_ne_zero pos)
  rw [chunkLen] at short ⊢
  split at short
  · rename_i aligned
    rw [if_pos aligned, Nat.min_eq_right (by omega)]
    exact (Nat.dvd_of_mod_eq_zero aligned).add (Nat.dvd_refl period)
  · rename_i offset
    rw [if_neg offset, Nat.min_eq_right (by omega)]
    have whole := Nat.div_add_mod h.appendCtr period
    refine ⟨h.appendCtr / period + 1, ?_⟩
    rw [Nat.mul_add, Nat.mul_one]
    omega

theorem batch_covered (inv : h.Inv fun _ => True) (covered : h.Covered) {updates : List (PreparedUpdate K V)}
    (run : h.appendPreparedMaskedBatch math updates = .ok h') :
    (h'.Covered ↔ ∀ g chunk, OpenEnd math h updates g chunk → g.stash.occupancy + realUpdates chunk ≤ g.peakOverflow) ∧
    h.peakOverflow ≤ h'.peakOverflow := by
  induction hn : updates.length using Nat.strong_induction_on generalizing h updates with
  | _ n ih =>
    by_cases none : updates = []
    · rw [none, appendPreparedMaskedBatch, dif_pos rfl, Except.ok.injEq] at run
      subst run
      refine ⟨iff_of_true covered fun g chunk ends => ?_, Nat.le_refl _⟩
      cases ends with
      | chunk some => exact absurd none some
      | evicted some => exact absurd none some
    have known : KnownUpdates (fun _ => True) updates := fun _ _ _ _ => trivial
    obtain ⟨period, stash, e, inserted, evicted, rest⟩ := appendPreparedMaskedBatch_cons none run
    have progress := h.chunkLen_pos period (List.length_pos_iff.mpr none)
    have within : h.chunkLen h.currentEvictInterval updates.length ≤ updates.length := Nat.min_le_left ..
    obtain ⟨minv, -⟩ := batchChunk_step inv (fun _ _ _ _ => trivial) inserted
      (h.chunkLen h.currentEvictInterval updates.length)
    simp only at evicted
    split at evicted
    · rename_i due
      obtain ⟨covered', higher⟩ := evictAfterInsert_covered minv evicted
      have einv := (evictAfterInsert_reshuffle minv.shape.height_le evicted).inv minv
      obtain ⟨tail, higher'⟩ := ih (updates.drop (h.chunkLen h.currentEvictInterval updates.length)).length (by
        rw [List.length_drop]
        omega) einv covered' rest rfl
      refine ⟨tail.trans ?_, higher.trans higher'⟩
      constructor
      · intro room g chunk ends
        cases ends with
        | chunk some early => exact absurd due early
        | evicted some due' inserted' run' later =>
          obtain rfl := Except.ok.inj (inserted.symm.trans inserted')
          obtain rfl := Except.ok.inj (evicted.symm.trans run')
          exact room g chunk later
      · intro room g chunk later
        exact room g chunk (.evicted none due inserted evicted later)
    · rename_i early
      simp only [Except.ok.injEq] at evicted
      have whole : h.chunkLen h.currentEvictInterval updates.length = updates.length :=
        Nat.le_antisymm within (Nat.le_of_not_lt fun short => early (chunkLen_due period short))
      rw [whole, List.drop_length, appendPreparedMaskedBatch, dif_pos rfl, Except.ok.injEq] at rest
      obtain ⟨-, -, -, added⟩ := insertBatch_spec (by rw [inv.shape.slots]; omega) inserted
      have occupancy : stash.occupancy = h.stash.occupancy +
          realUpdates (updates.take (h.chunkLen h.currentEvictInterval updates.length)) := by
        rw [occupancy_eq, occupancy_eq, added, List.length_append, ← reals_prepared h.epoch]
        congr 3
        exact List.map_map
      rw [← rest, ← evicted]
      refine ⟨?_, Nat.le_refl _⟩
      change stash.occupancy ≤ h.peakOverflow ↔ _
      rw [occupancy]
      constructor
      · intro room g chunk ends
        cases ends with
        | chunk some early => exact room
        | evicted some due => exact absurd due early
      · intro room
        exact room h _ (.chunk none early)

theorem step_covered (inv : h.Inv fun _ => True) (covered : h.Covered) {op : TreeOp K V} {out : Option V}
    (run : h.step math op = .ok (out, h')) : (h'.Covered ↔ WithinPeak math h op) ∧ h.peakOverflow ≤ h'.peakOverflow := by
  have quiet : ∀ g : ObliviousHistogram Z K A S V, g.stash.occupancy ≤ h.stash.occupancy → g.peakOverflow = h.peakOverflow →
      (g.Covered ↔ True) ∧ h.peakOverflow ≤ g.peakOverflow := fun g lower peak =>
    ⟨iff_true_intro (lower.trans (covered.trans_eq peak.symm)), peak.ge⟩
  cases op with
  | append key val =>
    obtain ⟨g, hg, same⟩ := map_ok run
    obtain ⟨-, rfl⟩ := Prod.mk.inj same
    exact append_covered inv hg
  | appendBatch updates =>
    obtain ⟨g, hg, same⟩ := map_ok run
    obtain ⟨-, rfl⟩ := Prod.mk.inj same
    exact batch_covered inv covered hg
  | readTotal key =>
    obtain ⟨⟨v, g⟩, hg, run⟩ := bind_ok run
    simp only [pure, Except.pure, Except.ok.injEq, Prod.mk.injEq] at run
    obtain ⟨-, rfl⟩ := run
    obtain ⟨covered', higher⟩ := readPreparedTotal_covered hg
    exact ⟨iff_true_intro covered', higher⟩
  | readDummy draw =>
    obtain ⟨g, hg, same⟩ := map_ok run
    obtain ⟨-, rfl⟩ := Prod.mk.inj same
    obtain ⟨covered', higher⟩ := readDummy_covered hg
    exact ⟨iff_true_intro covered', higher⟩
  | flush =>
    simp only [step, Except.ok.injEq, Prod.mk.injEq] at run
    exact run.2 ▸ quiet h (Nat.le_refl _) rfl
  | grow =>
    obtain ⟨g, hg, same⟩ := map_ok run
    obtain ⟨-, rfl⟩ := Prod.mk.inj same
    obtain ⟨lower, peak⟩ := grow_peak inv hg
    exact quiet _ lower peak
  | enableAutoResize cfg =>
    obtain ⟨g, hg, same⟩ := map_ok run
    obtain ⟨-, rfl⟩ := Prod.mk.inj same
    obtain ⟨same, peak⟩ := configureAutoResize_peak hg
    exact quiet _ (congrArg ObliviousStash.occupancy same).le peak
  | enableDeferredAutoResize cfg emits =>
    obtain ⟨g, hg, same⟩ := map_ok run
    obtain ⟨-, rfl⟩ := Prod.mk.inj same
    obtain ⟨same, peak⟩ := configureAutoResize_peak hg
    exact quiet _ (congrArg ObliviousStash.occupancy same).le peak
  | takeDeferredSignal =>
    obtain ⟨⟨signal, g⟩, hg, run⟩ := bind_ok run
    simp only [pure, Except.pure, Except.ok.injEq, Prod.mk.injEq] at run
    obtain ⟨-, rfl⟩ := run
    obtain ⟨same, peak⟩ := takeDeferredAutoResizeSignal_peak hg
    exact quiet _ (congrArg ObliviousStash.occupancy same).le peak
  | applyDeferredGrow target =>
    obtain ⟨g, hg, same⟩ := map_ok run
    obtain ⟨-, rfl⟩ := Prod.mk.inj same
    obtain ⟨same, peak⟩ := applyDeferredAutoResizeGrow_peak inv.shape hg
    exact quiet _ same.le peak
  | handleDeferredResize =>
    obtain ⟨g, hg, same⟩ := map_ok run
    obtain ⟨-, rfl⟩ := Prod.mk.inj same
    obtain ⟨⟨signal, m⟩, taken, run⟩ := bind_ok hg
    obtain ⟨same, peak⟩ := takeDeferredAutoResizeSignal_peak taken
    have shape := ((takeDeferredAutoResizeSignal_reshuffle taken).inv inv).shape
    cases signal with
    | some target =>
      obtain ⟨same', peak'⟩ := applyDeferredAutoResizeGrow_peak shape run
      exact quiet _ (same'.trans (congrArg ObliviousStash.occupancy same)).le (peak'.trans peak)
    | none =>
      simp only [pure, Except.pure, Except.ok.injEq] at run
      exact quiet _ (run ▸ (congrArg ObliviousStash.occupancy same).le) (run ▸ peak)

/-- The states a run passes through, with the operations that are left. -/
inductive Passes (math : ResizeMath) : ObliviousHistogram Z K A S V → List (TreeOp K V) →
    ObliviousHistogram Z K A S V → List (TreeOp K V) → Prop
  | here {h : ObliviousHistogram Z K A S V} {ops : List (TreeOp K V)} : Passes math h ops h ops
  | later {h m g : ObliviousHistogram Z K A S V} {op : TreeOp K V} {ops rest : List (TreeOp K V)} {out : Option V}
      (run : h.step math op = .ok (out, m)) (after : Passes math m ops g rest) : Passes math h (op :: ops) g rest

/-- From a state a run passes through, the run goes on with its next operation. -/
theorem Passes.next {ops rest : List (TreeOp K V)} {op : TreeOp K V} (passes : Passes math h ops g (op :: rest))
    {outs : List (Option V)} (inv : h.Inv fun _ => True) (hrun : h.run math ops = .ok (outs, h')) :
    g.Inv (fun _ => True) ∧ ∃ out m, g.step math op = .ok (out, m) ∧ Passes math h ops m rest := by
  generalize left : op :: rest = tail at passes
  induction passes generalizing outs with
  | here =>
    subst left
    obtain ⟨out, -, m, step, -⟩ := run_cons hrun
    exact ⟨inv, out, m, step, .later step .here⟩
  | later run after ih =>
    obtain ⟨out, outs', m, step, tail, -⟩ := run_cons hrun
    obtain ⟨-, rfl⟩ := Prod.mk.inj (Except.ok.inj (run.symm.trans step))
    obtain ⟨ginv, out, g', step', passes⟩ := ih (step_inv inv (fun _ _ => trivial) step).1 tail left
    exact ⟨ginv, out, g', step', .later step passes⟩

/-- As long as the inserts stay within the peak, it covers what the run passes through, and never falls. -/
theorem run_covered (inv : h.Inv fun _ => True) (covered : h.Covered) {ops : List (TreeOp K V)} {outs : List (Option V)}
    (hrun : h.run math ops = .ok (outs, h'))
    (within : ∀ g op rest, Passes math h ops g (op :: rest) → WithinPeak math g op) {rest : List (TreeOp K V)}
    (passes : Passes math h ops g rest) : g.Covered ∧ g.peakOverflow ≤ h'.peakOverflow := by
  induction ops generalizing h g outs rest with
  | nil =>
    simp only [run, Except.ok.injEq, Prod.mk.injEq] at hrun
    obtain ⟨-, rfl⟩ := hrun
    cases passes
    exact ⟨covered, Nat.le_refl _⟩
  | cons op ops ih =>
    obtain ⟨out, outs', m, hstep, htail, -⟩ := run_cons hrun
    obtain ⟨first, higher⟩ := step_covered inv covered hstep
    have tail : ∀ {g rest}, Passes math m ops g rest → g.Covered ∧ g.peakOverflow ≤ h'.peakOverflow := fun after =>
      ih (step_inv inv (fun _ _ => trivial) hstep).1 (first.mpr (within h op ops .here)) htail
        (fun g op rest passes => within g op rest (.later hstep passes)) after
    cases passes with
    | here => exact ⟨covered, higher.trans (tail .here).2⟩
    | later run after =>
      obtain ⟨-, rfl⟩ := Prod.mk.inj (Except.ok.inj (run.symm.trans hstep))
      exact tail after

end Inserts

end ObliviousHistogram

/-- In a run of a new tree the peak covers every state if and only if every insert that no eviction
follows finds room below it; the last peak then bounds the occupancy of all of them. -/
theorem peak_covers_iff [Add V] [Inhabited V] {cap : Nat} {prf : Aes128} {h h' : ObliviousHistogram Z K A S V}
    {ops : List (TreeOp K V)} {outs : List (Option V)} (start : new cap prf = .ok h)
    (hrun : h.run math ops = .ok (outs, h')) :
    (∀ g rest, Passes math h ops g rest → g.stash.occupancy ≤ g.peakOverflow ∧ g.stash.occupancy ≤ h'.peakOverflow) ↔
      ∀ g op rest, Passes math h ops g (op :: rest) → WithinPeak math g op := by
  have inv : h.Inv fun _ => True := (new_spec start).1
  have covered : h.Covered := by
    have nothing : h.overflow = [] := (List.append_eq_nil_iff.mp (@new_spec _ _ _ _ _ (fun _ => True) _ _ _ _ start).2.1).2
    rw [Covered, occupancy_eq]
    exact (congrArg List.length nothing).trans_le (Nat.zero_le _)
  constructor
  · intro all g op rest passes
    obtain ⟨ginv, out, m, step, after⟩ := passes.next inv hrun
    exact (step_covered ginv (all g _ passes).1 step).1.mp (all m rest after).1
  · intro within g rest passes
    obtain ⟨here, later⟩ := run_covered inv covered hrun within passes
    exact ⟨here, here.trans later⟩

/-- With `A = 1` an eviction follows every insert. -/
theorem peak_covers_append : ∃ (h h' : ObliviousHistogram 1 1 1 2 Nat) (outs : List (Option Nat)),
    new 2 id = .ok h ∧ h.run .constant [.append [1] 5] = .ok (outs, h') ∧
      h'.stash.occupancy ≤ h'.peakOverflow := by
  have run : (runNew .constant 2 id [.append [1] 5] : Except Panic (List (Option Nat) ×
      ObliviousHistogram 1 1 1 2 Nat)).toBool = true := by decide +kernel
  obtain ⟨⟨outs, h'⟩, run⟩ := exists_of_toBool run
  obtain ⟨h, start, run⟩ := bind_ok run
  have every : h.currentEvictInterval = 1 := by
    rw [currentEvictInterval]
    split <;> rfl
  have within : ∀ g op rest, Passes .constant h [.append [1] 5] g (op :: rest) → WithinPeak .constant g op := by
    intro g op rest passes
    cases passes with
    | here => exact .inl (every.dvd.trans (Nat.one_dvd _))
    | later _ after => cases after
  obtain ⟨out, outs', m, step, last, -⟩ := run_cons run
  simp only [ObliviousHistogram.run, Except.ok.injEq, Prod.mk.injEq] at last
  obtain ⟨-, rfl⟩ := last
  exact ⟨h, m, outs, start, run, ((peak_covers_iff start run).mpr within m [] (.later step .here)).1⟩

/-- With `A = 2` the first append leaves a block in the overflow and a peak of zero. -/
theorem peak_below_occupancy : ∃ (h' : ObliviousHistogram 1 1 2 2 Nat) (outs : List (Option Nat)),
    runNew .constant 2 id [.append [1] 5] = .ok (outs, h') ∧ h'.peakOverflow < h'.stash.occupancy := by
  have run : ((runNew .constant 2 id [.append [1] 5] : Except Panic (List (Option Nat) ×
      ObliviousHistogram 1 1 2 2 Nat)).toOption.map fun r => (r.2.peakOverflow, r.2.stash.occupancy)) = some (0, 1) := by
    decide +kernel
  cases ran : (runNew .constant 2 id [.append [1] 5] : Except Panic (List (Option Nat) ×
      ObliviousHistogram 1 1 2 2 Nat)) with
  | error e => simp [ran, Except.toOption] at run
  | ok r =>
    rw [ran] at run
    obtain ⟨peak, occupancy⟩ := Prod.mk.inj (Option.some.inj run)
    exact ⟨r.2, r.1, rfl, by omega⟩

end Roga
