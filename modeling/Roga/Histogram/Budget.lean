import Roga.Histogram.Tandem
import Roga.Histogram.Packing
import Roga.Histogram.Peak

/-! What runs without manual growths can spend. An insert slot pays for each check and for
each growth, and a real update for each block in the overflow; so short runs draw little
noise, stay low and do not panic. -/
namespace Roga
open Ct Reals ObliviousStash SparseVector ObliviousHistogram
variable {Z K A S : Nat} {V : Type} {math : ResizeMath}

namespace ObliviousHistogram
variable {h g : ObliviousHistogram Z K A S V}

/-- How many times noise has been drawn for checks and growths. -/
def drawn (h : ObliviousHistogram Z K A S V) : Nat := (h.transcript fun _ => false).countP Step.draws

/-- One if a check has asked for a growth that has not happened yet. -/
def owed (h : ObliviousHistogram Z K A S V) : Nat := (h.autoResize.bind AutoResizeState.pendingGrow).toList.length

/-- Who grows the tree, if auto-resize is on. -/
def duty (h : ObliviousHistogram Z K A S V) : Option (Bool × Bool) :=
  h.autoResize.map fun auto => (auto.deferred, auto.emitsGrowSignal)

/-- `g` is `h` after steps that insert slots pay for. -/
structure Funded (h g : ObliviousHistogram Z K A S V) : Prop where
  duty : g.duty = h.duty
  draws : g.drawn + g.owed + 2 * slotsOf h.trace ≤ h.drawn + h.owed + 2 * slotsOf g.trace
  growths : g.height + g.owed + slotsOf h.trace ≤ h.height + h.owed + slotsOf g.trace

theorem Funded.trans {m : ObliviousHistogram Z K A S V} (first : Funded h m) (second : Funded m g) : Funded h g := by
  obtain ⟨duty, draws, growths⟩ := first
  obtain ⟨duty', draws', growths'⟩ := second
  exact ⟨duty'.trans duty, by omega, by omega⟩

theorem Shows.drawn {steps : List (Step PublicEvent)} {slots : Nat} (shows : Shows (fun _ => false) h steps slots g) :
    g.drawn = h.drawn + steps.countP Step.draws := by
  rw [ObliviousHistogram.drawn, shows.transcript, List.countP_append, ← ObliviousHistogram.drawn]

theorem countP_quiet {steps : List (Step PublicEvent)} (quiet : ∀ e ∈ steps, e.draws = false) :
    steps.countP Step.draws = 0 := by
  refine List.countP_eq_zero.mpr fun e he => ?_
  rw [quiet e he]
  exact Bool.false_ne_true

/-- Steps that draw nothing, and leave the estimator and the height alone. -/
theorem Funded.of_quiet {steps : List (Step PublicEvent)} {slots : Nat}
    (shows : Shows (fun _ => false) h steps slots g) (quiet : ∀ e ∈ steps, e.draws = false)
    (height : g.height = h.height) (autoResize : g.autoResize = h.autoResize) : Funded h g := by
  have drawn := shows.drawn
  have more := shows.slots
  rw [countP_quiet quiet] at drawn
  have owed : g.owed = h.owed := by rw [ObliviousHistogram.owed, autoResize, ← ObliviousHistogram.owed]
  refine ⟨?_, by omega, by omega⟩
  rw [ObliviousHistogram.duty, autoResize, ← ObliviousHistogram.duty]

theorem owed_le (h : ObliviousHistogram Z K A S V) : h.owed ≤ 1 := by
  rw [owed]
  cases h.autoResize.bind AutoResizeState.pendingGrow with
  | none => exact Nat.zero_le _
  | some target => exact Nat.le_refl _

section Steps
variable [Add V] [Inhabited V]

/-- An eviction draws twice at most, and grows the tree or asks for a growth once at most. -/
theorem evictAfterInsert_funded (run : h.evictAfterInsert math = .ok g) :
    g.duty = h.duty ∧ g.drawn + g.owed ≤ h.drawn + h.owed + 2 ∧ g.height + g.owed ≤ h.height + h.owed + 1 := by
  obtain ⟨tail, shows, checked⟩ := evictAfterInsert_shows (fun _ => false) run
  have drawn := shows.drawn
  rw [List.countP_append, countP_quiet (evictSteps_quiet h), Nat.zero_add] at drawn
  cases checked with
  | early _ after height =>
    have duty : g.duty = h.duty := by
      rw [ObliviousHistogram.duty, after, Option.map_map]
      rfl
    have owed : g.owed = h.owed := by
      rw [ObliviousHistogram.owed, after, ObliviousHistogram.owed]
      cases h.autoResize <;> rfl
    rw [List.countP_nil] at drawn
    exact ⟨duty, by omega, by omega⟩
  | kept auto before due signal next evaluated quiet after height =>
    obtain ⟨-, -, -, -, deferred, emits, -⟩ := evaluateSignal_spec evaluated
    have duty : g.duty = h.duty := by
      rw [ObliviousHistogram.duty, ObliviousHistogram.duty, after, before]
      exact congrArg some (Prod.ext deferred emits)
    have one : [Step.query (α := PublicEvent) ((auto.cSum + h.evictCount : Nat) : Int) signal.isSome].countP
      Step.draws = 1 := rfl
    have owed := owed_le g
    exact ⟨duty, by omega, by omega⟩
  | grown auto before due target next evaluated immediate after height =>
    obtain ⟨-, -, -, -, deferred, emits, pending⟩ := evaluateSignal_spec evaluated
    have duty : g.duty = h.duty := by
      rw [ObliviousHistogram.duty, ObliviousHistogram.duty, after, before]
      exact congrArg some (Prod.ext deferred emits)
    have owed : g.owed = h.owed := by
      rw [ObliviousHistogram.owed, ObliviousHistogram.owed, after, before]
      exact congrArg (fun p => (Option.toList p).length) pending
    have two : [Step.query (α := PublicEvent) ((auto.cSum + h.evictCount : Nat) : Int) true, .renew].countP
      Step.draws = 2 := rfl
    exact ⟨duty, by omega, by omega⟩

/-- Slots that pay for the eviction that follows them, if it is due. -/
theorem Funded.of_slots {known : UInt64 × Vector UInt8 K → Prop} {count : Nat} {blocks : List (OramBlock K V)}
    {m : ObliviousHistogram Z K A S V} (filled : Filled known h count blocks m)
    (shows : Shows (fun _ => false) h (slotSteps (fun _ => false) (slotsOf h.trace) count) count m) (pos : 0 < count)
    {due : Prop} [Decidable due] (evicted : (if due then m.evictAfterInsert math else .ok m) = .ok g) : Funded h g := by
  have first := Funded.of_quiet shows (slotSteps_quiet _ _ _) filled.height filled.autoResize
  have slots := (evictIf_slots evicted).trans shows.slots
  split at evicted
  · obtain ⟨duty, draws, growths⟩ := evictAfterInsert_funded evicted
    have drawn := shows.drawn
    rw [countP_quiet (slotSteps_quiet _ _ _)] at drawn
    have owed : m.owed = h.owed := by rw [ObliviousHistogram.owed, filled.autoResize, ← ObliviousHistogram.owed]
    have height := filled.height
    exact ⟨duty.trans first.duty, by omega, by omega⟩
  · exact Except.ok.inj evicted ▸ first

theorem Funded.batch (inv : h.Inv fun _ => True) {updates : List (PreparedUpdate K V)}
    (run : h.appendPreparedMaskedBatch math updates = .ok g) : Funded h g := by
  induction hn : updates.length using Nat.strong_induction_on generalizing h updates with
  | _ n ih =>
    by_cases none : updates = []
    · rw [none, appendPreparedMaskedBatch, dif_pos rfl, Except.ok.injEq] at run
      exact run ▸ .of_quiet (.of_trace rfl) (by simp) rfl rfl
    obtain ⟨progress, -, m, e, filled, shows, evicted, run⟩ := batch_shows (fun _ => false) inv
      (fun _ _ _ _ => trivial) none run
    have moves := evictIf_reshuffle filled.inv.shape.height_le evicted
    refine (Funded.of_slots filled shows progress evicted).trans (ih _ ?_ (moves.inv filled.inv) run rfl)
    have := List.length_pos_iff.mpr none
    rw [List.length_drop]
    omega

omit [Add V] in
/-- The growth that was owed. -/
theorem Funded.deferredGrow {target : Nat} {auto : AutoResizeState} (before : h.autoResize = some auto)
    (asked : auto.pendingGrow = some target) (run : h.applyDeferredAutoResizeGrow math target = .ok g) : Funded h g := by
  have grown := applyDeferredAutoResizeGrow_grown run
  have shows := applyDeferredAutoResizeGrow_shows (fun _ => false) run
  have drawn := shows.drawn
  have slots := shows.slots
  have height : g.height = h.height + 1 := grown.height
  have after := grown.autoResize
  simp only [before, Option.map_some] at after
  have owed : h.owed = 1 := by
    rw [ObliviousHistogram.owed, before, Option.bind_some, asked]
    rfl
  have paid : g.owed = 0 := by
    rw [ObliviousHistogram.owed, after]
    rfl
  have one : [Step.renew (α := PublicEvent)].countP Step.draws = 1 := rfl
  refine ⟨?_, by omega, by omega⟩
  rw [ObliviousHistogram.duty, ObliviousHistogram.duty, after, before]
  rfl

theorem Funded.step (inv : h.Inv fun _ => True) {op : TreeOp K V} (routine : op.Routine) {out : Option V}
    (run : h.step math op = .ok (out, g)) : Funded h g := by
  cases op with
  | append key val =>
    obtain ⟨r, hr, same⟩ := map_ok run
    obtain ⟨-, rfl⟩ := Prod.mk.inj same
    obtain ⟨m, filled, shows, evicted⟩ := addPreparedInner_shows (fun _ => false) inv (fun _ => trivial) hr
    exact .of_slots filled shows Nat.one_pos evicted
  | appendBatch updates =>
    obtain ⟨r, hr, same⟩ := map_ok run
    obtain ⟨-, rfl⟩ := Prod.mk.inj same
    exact .batch inv hr
  | readTotal key =>
    obtain ⟨⟨v, r⟩, hr, run⟩ := bind_ok run
    simp only [pure, Except.pure, Except.ok.injEq, Prod.mk.injEq] at run
    obtain ⟨-, rfl⟩ := run
    have still := readPreparedTotal_still hr
    exact .of_quiet (readPreparedTotal_shows _ hr) (by simp [Step.draws]) still.height still.autoResize
  | readDummy draw =>
    obtain ⟨r, hr, same⟩ := map_ok run
    obtain ⟨-, rfl⟩ := Prod.mk.inj same
    have still := readDummy_still hr
    exact .of_quiet (readDummy_shows _ hr) (by simp [Step.draws]) still.height still.autoResize
  | flush =>
    simp only [ObliviousHistogram.step, Except.ok.injEq, Prod.mk.injEq] at run
    exact run.2 ▸ .of_quiet (.of_trace rfl) (by simp) rfl rfl
  | handleDeferredResize =>
    obtain ⟨r, hr, same⟩ := map_ok run
    obtain ⟨-, rfl⟩ := Prod.mk.inj same
    obtain ⟨auto, before, ⟨-, rfl⟩ | ⟨target, asked, grown⟩⟩ := handleDeferredResize_spec hr
    · exact .of_quiet (.of_trace rfl) (by simp) rfl rfl
    · exact .deferredGrow before asked grown
  | grow | enableAutoResize | enableDeferredAutoResize | takeDeferredSignal | applyDeferredGrow => exact routine.elim

/-- Whole runs. -/
theorem Funded.run (inv : h.Inv fun _ => True) {ops : List (TreeOp K V)} (routine : ∀ op ∈ ops, op.Routine)
    {outs : List (Option V)} (run : h.run math ops = .ok (outs, g)) : Funded h g := by
  induction ops generalizing h outs with
  | nil =>
    simp only [ObliviousHistogram.run, Except.ok.injEq, Prod.mk.injEq] at run
    exact run.2 ▸ .of_quiet (.of_trace rfl) (by simp) rfl rfl
  | cons op ops ih =>
    obtain ⟨out, rest, w, hstep, hrun, -⟩ := run_cons run
    have first := Funded.step inv (routine op (.head _)) hstep
    exact first.trans (ih (step_inv inv (fun _ _ => trivial) hstep).1 (fun op hop => routine op (.tail _ hop)) hrun)

end Steps

section Progress
variable [Add V] [Inhabited V]

omit [Add V] in
theorem applyAutoResizeGrow_ok (accepted : h.Accepted math) (low : h.height < maxTreeHeight) (target : Nat) :
    ∃ g, h.applyAutoResizeGrow math target = .ok g := by
  obtain ⟨m, grown⟩ : ∃ m, h.growPhysicalStorage = .ok m := ⟨_, if_pos low⟩
  exact ⟨_, applyAutoResizeGrow_of_accepted grown (accepted.grow grown) target⟩

omit [Add V] in
theorem checkAndMaybeResizePostEviction_ok (accepted : h.Accepted math) (low : h.height < maxTreeHeight) :
    ∃ g, h.checkAndMaybeResizePostEviction math = .ok g := by
  rw [checkAndMaybeResizePostEviction]
  split
  · exact ⟨_, rfl⟩
  · rename_i auto before
    split
    · exact ⟨_, rfl⟩
    · split
      · exact ⟨_, rfl⟩
      · rcases evaluated : h.evaluateSignal math auto with ⟨signal, m⟩
        have height : m.height = h.height := (congrArg (fun r => r.2.height) evaluated).symm
        have after : m.autoResize = some (auto.evaluateSignal math Z).2 :=
          (congrArg (fun r => r.2.autoResize) evaluated).symm
        have maccepted : m.Accepted math := fun auto' on => by
          obtain rfl := Option.some.inj (after.symm.trans on)
          exact accepted auto before
        rw [checkAndMaybeResize, evaluated]
        cases signal with
        | some target => exact applyAutoResizeGrow_ok maccepted (height.trans_lt low) target
        | none => exact ⟨_, rfl⟩

/-- With a free overflow slot, and below the height limit, an eviction does not panic. -/
theorem evictAfterInsert_ok (accepted : h.Accepted math) (inv : h.Inv fun _ => True) (room : h.stash.occupancy < S)
    (low : h.height < maxTreeHeight) : ∃ g, h.evictAfterInsert math = .ok g := by
  obtain ⟨lower, upper⟩ := evictLeafAt_bounds inv.shape.height_le h.evictCtr
  obtain ⟨size, length, -, -⟩ := mergedStash_spec lower upper inv.shape
  obtain ⟨r, run⟩ := (writeToPath_occupancy lower upper inv size length (.refl _)).2 room
  have prep := evictPrepared_spec h
  rw [← prep.stash, ← prep.memory] at run
  obtain ⟨m, written⟩ : ∃ m, h.evictPrepared.writePath (evictLeafAt h.height h.evictCtr) = .ok m :=
    ⟨_, writePath_ok run⟩
  have height : m.updatePeakOverflow.height = h.height :=
    (updatePeakOverflow_still m).height.trans ((writePath_still written).height.trans prep.height)
  have maccepted : h.evictPrepared.Accepted math := fun auto' on => by
    rw [prep.autoResize] at on
    obtain ⟨auto, before, rfl⟩ := Option.map_eq_some_iff.mp on
    exact accepted auto before
  obtain ⟨g, done⟩ := checkAndMaybeResizePostEviction_ok
    ((maccepted.still (writePath_still written)).still (updatePeakOverflow_still m)) (height.trans_lt low)
  refine ⟨g, .trans ?_ done⟩
  exact congrArg (fun step => step >>= fun g => g.updatePeakOverflow.checkAndMaybeResizePostEviction math) written

omit [Add V] [Inhabited V] in
theorem updatePeakOverflow_stash (h : ObliviousHistogram Z K A S V) : h.updatePeakOverflow.stash = h.stash := by
  rw [updatePeakOverflow]
  split <;> rfl

/-- An eviction leaves no more blocks in the overflow than there were. -/
theorem evictAfterInsert_lower (inv : h.Inv fun _ => True) (run : h.evictAfterInsert math = .ok g) :
    g.stash.occupancy ≤ h.stash.occupancy := by
  obtain ⟨m, written, check⟩ := evictAfterInsert_spec run
  obtain ⟨lower, upper⟩ := evictLeafAt_bounds inv.shape.height_le h.evictCtr
  have prep := evictPrepared_spec h
  have minv := (inv.touch lower upper prep.memory prep.stash prep.height written).1
  obtain ⟨occupancy, -⟩ := checkAndMaybeResizePostEviction_peak ((updatePeakOverflow_reshuffle m).inv minv).shape check
  obtain ⟨size, length, -, -⟩ := mergedStash_spec lower upper inv.shape
  obtain ⟨path, fields⟩ := writePath_fields written
  rw [prep.stash, prep.memory] at path
  rw [occupancy, updatePeakOverflow_stash]
  exact (writeToPath_occupancy lower upper inv size length (.refl _)).1 _ _ path

theorem evictIf_ok (accepted : h.Accepted math) (inv : h.Inv fun _ => True) (room : h.stash.occupancy < S)
    (low : h.height < maxTreeHeight) (due : Prop) [Decidable due] :
    ∃ g, (if due then h.evictAfterInsert math else .ok h) = .ok g ∧ g.stash.occupancy ≤ h.stash.occupancy := by
  split
  · obtain ⟨g, run⟩ := evictAfterInsert_ok accepted inv room low
    exact ⟨g, run, evictAfterInsert_lower inv run⟩
  · exact ⟨h, rfl, Nat.le_refl _⟩

omit [Add V] [Inhabited V] in
theorem overflowSlots_length (inv : h.Inv fun _ => True) : h.stash.overflowSlots.length = S := by
  have slots := inv.shape.slots
  rw [overflowSlots, List.length_drop]
  omega

omit [Add V] [Inhabited V] in
theorem exists_free (inv : h.Inv fun _ => True) (room : h.stash.occupancy < S) :
    ∃ b ∈ h.stash.overflowSlots, b.isReal = false := by
  by_contra full
  have all : reals h.stash.overflowSlots = h.stash.overflowSlots := reals_eq_self fun b hb => by
    by_contra real
    exact full ⟨b, hb, by simpa using real⟩
  rw [occupancy_eq, all, overflowSlots_length inv] at room
  exact absurd room (Nat.lt_irrefl S)

/-- An append for whose block there is room. -/
theorem append_ok (accepted : h.Accepted math) (inv : h.Inv fun _ => True) {key : List UInt8} {val : V}
    (room : h.stash.occupancy + ((TreeOp.append (K := K) key val).inserts h.prf).length < S)
    (low : h.height < maxTreeHeight) : ∃ g, h.append math key val = .ok g ∧
      g.stash.occupancy ≤ h.stash.occupancy + ((TreeOp.append (K := K) key val).inserts h.prf).length := by
  obtain ⟨stash, inserted⟩ := insert_ok (prfTag h.prf key) h.epoch val (copyPrefix K key)
    (exists_free inv (by omega))
  obtain ⟨-, -, -, added⟩ := insert_spec _ _ _ _ (by rw [inv.shape.slots]; omega) inserted
  have count : (reals [(⟨prfTag h.prf key, h.epoch, val, copyPrefix K key⟩ : OramBlock K V)]).length =
      ((TreeOp.append (K := K) key val).inserts h.prf).length := by
    rw [TreeOp.inserts]
    by_cases zero : prfTag h.prf key = 0
    · rw [zero]
      rfl
    · rw [reals_cons_real (OramBlock.isReal_iff.mpr zero), List.filter_cons_of_pos (by simpa using zero)]
      rfl
  have occupancy : stash.occupancy =
      h.stash.occupancy + ((TreeOp.append (K := K) key val).inserts h.prf).length := by
    rw [occupancy_eq, occupancy_eq, added.length_eq, List.length_append, count, Nat.add_comm]
  let stored := ({ h with stash } : ObliviousHistogram Z K A S V).logStored (prfTag h.prf key) (copyPrefix K key)
  let m : ObliviousHistogram Z K A S V :=
    ({ stored with appendCtr := stored.appendCtr + 1 } : ObliviousHistogram Z K A S V).log .slot
  have minv : m.Inv fun _ => True := (insert_step inv (fun _ => trivial) inserted).1.congr rfl rfl rfl
  have mroom : m.stash.occupancy < S := occupancy.trans_lt room
  obtain ⟨g, run, lower⟩ := evictIf_ok (show m.Accepted math from accepted) minv mroom low (m.currentEvictInterval ∣ m.appendCtr)
  refine ⟨g, .trans ?_ run, lower.trans_eq occupancy⟩
  exact congrArg (fun step => step >>= fun stash =>
    (({ h with stash } : ObliviousHistogram Z K A S V).logStored (prfTag h.prf key)
      (copyPrefix K key)).finishAppendAfterInsert math) inserted

omit [Add V] [Inhabited V] in
theorem currentEvictInterval_pos (pos : 0 < A) (h : ObliviousHistogram Z K A S V) : h.currentEvictInterval ≠ 0 := by
  rw [currentEvictInterval]
  split <;> omega

omit [Add V] in
/-- The insertion of a chunk for whose real updates there is room. -/
theorem insertChunk_ok (inv : h.Inv fun _ => True) (chunk : List (PreparedUpdate K V))
    (room : h.stash.occupancy + realUpdates chunk < S) : ∃ stash,
    h.stash.insertBatch (chunk.map fun u => (u.1, h.epoch, u.2.1, u.2.2.1, u.2.2.2)) = .ok stash ∧
      stash.occupancy = h.stash.occupancy + realUpdates chunk := by
  have blocks : (reals ((chunk.map fun u => (u.1, h.epoch, u.2.1, u.2.2.1, u.2.2.2)).map updateBlock)).length =
      realUpdates chunk := by
    rw [← reals_prepared h.epoch, List.map_map]
    rfl
  obtain ⟨stash, inserted⟩ := insertBatch_ok_iff.mpr (show h.stash.Room _ by
    rw [Room, blocks, ← occupancy_eq, overflowSlots_length inv]
    omega)
  obtain ⟨-, -, -, added⟩ := insertBatch_spec (by rw [inv.shape.slots]; omega) inserted
  refine ⟨stash, inserted, ?_⟩
  rw [occupancy_eq, occupancy_eq, added, List.length_append, blocks]

/-- A batch for whose real updates there is room, with a growth to spare for each slot. -/
theorem batch_ok (accepted : h.Accepted math) (pos : 0 < A) (inv : h.Inv fun _ => True) {updates : List (PreparedUpdate K V)}
    (room : h.stash.occupancy + realUpdates updates < S) (low : h.height + h.owed + updates.length ≤ maxTreeHeight) :
    ∃ g, h.appendPreparedMaskedBatch math updates = .ok g ∧
      g.stash.occupancy ≤ h.stash.occupancy + realUpdates updates := by
  induction hn : updates.length using Nat.strong_induction_on generalizing h updates with
  | _ n ih =>
    by_cases none : updates = []
    · rw [none, appendPreparedMaskedBatch, dif_pos rfl]
      exact ⟨h, rfl, Nat.le_add_right _ _⟩
    have period := currentEvictInterval_pos pos h
    have progress := h.chunkLen_pos period (List.length_pos_iff.mpr none)
    have within : h.chunkLen h.currentEvictInterval updates.length ≤ updates.length := Nat.min_le_left ..
    rw [appendPreparedMaskedBatch, dif_neg none]
    simp only [dif_neg period]
    generalize h.chunkLen h.currentEvictInterval updates.length = count at *
    have parts : realUpdates (updates.take count) + realUpdates (updates.drop count) = realUpdates updates := by
      rw [realUpdates, realUpdates, ← List.countP_append, List.take_append_drop, realUpdates]
    obtain ⟨stash, inserted, occupancy⟩ := insertChunk_ok inv (updates.take count) (by omega)
    let m : ObliviousHistogram Z K A S V :=
      ({ h with stash, appendCtr := h.appendCtr + count } : ObliviousHistogram Z K A S V).logSlots (updates.take count)
    obtain ⟨minv, -⟩ := batchChunk_step inv (fun _ _ _ _ => trivial) inserted count
    have mroom : m.stash.occupancy < S := occupancy.trans_lt (by omega)
    have mlow : m.height < maxTreeHeight := show h.height < maxTreeHeight by omega
    have maccepted : m.Accepted math := accepted
    obtain ⟨e, evicted, lower⟩ := evictIf_ok maccepted minv mroom mlow (h.currentEvictInterval ∣ m.appendCtr)
    have grown : e.height + e.owed ≤ h.height + h.owed + 1 := by
      have evicted := evicted
      split at evicted
      · exact (evictAfterInsert_funded evicted).2.2
      · rw [← Except.ok.inj evicted]
        exact Nat.le_succ _
    have einv := (evictIf_reshuffle minv.shape.height_le evicted).inv minv
    have below : e.stash.occupancy ≤ h.stash.occupancy + realUpdates (updates.take count) := lower.trans_eq occupancy
    have eroom : e.stash.occupancy + realUpdates (updates.drop count) < S := by omega
    have elow : e.height + e.owed + (updates.drop count).length ≤ maxTreeHeight := by
      rw [List.length_drop]
      omega
    obtain ⟨g, run, rest⟩ := ih _ (by rw [List.length_drop]; omega) (maccepted.evictIf evicted) einv eroom elow rfl
    refine ⟨g, ?_, by omega⟩
    rw [inserted]
    let next (w : ObliviousHistogram Z K A S V) := w.appendPreparedMaskedBatch math (updates.drop count)
    calc (if h.currentEvictInterval ∣ m.appendCtr then m.evictAfterInsert math >>= next else .ok m >>= next)
        = (if h.currentEvictInterval ∣ m.appendCtr then m.evictAfterInsert math else .ok m) >>= next :=
          (apply_ite (fun step => step >>= next) _ _ _).symm
      _ = .ok e >>= next := congrArg (fun step => step >>= next) evicted
      _ = .ok g := run

theorem readTotal_lower (inv : h.Inv fun _ => True) {key : List UInt8} {v : V} (run : h.readTotal key = .ok (v, g)) :
    g.stash.occupancy ≤ h.stash.occupancy := by
  obtain ⟨-, m, written, rfl⟩ := readPreparedTotal_spec run
  obtain ⟨low, high⟩ := toLeaf_bounds (prfTag h.prf key) inv.shape.height_le
  obtain ⟨size, length, -, -⟩ := mergedStash_spec low high inv.shape
  obtain ⟨size', length', sub⟩ := removeAll_spec (h.mergedStash (toLeaf (prfTag h.prf key) h.height))
    [copyPrefix K key]
  rw [updatePeakOverflow_stash]
  exact (writeToPath_occupancy low high inv (size'.trans size) (length'.trans length) sub).1 _ _
    (writePath_fields written).1

theorem readDummy_lower (inv : h.Inv fun _ => True) {draw : Nat} (run : h.readDummy draw = .ok g) :
    g.stash.occupancy ≤ h.stash.occupancy := by
  obtain ⟨m, written, run⟩ := bind_ok run
  simp only [pure, Except.pure, Except.ok.injEq] at run
  subst run
  obtain ⟨low, high⟩ := leaf_bounds (Nat.mod_lt draw (Nat.two_pow_pos h.height))
  obtain ⟨size, length, -, -⟩ := mergedStash_spec low high inv.shape
  rw [updatePeakOverflow_stash]
  exact (writeToPath_occupancy low high inv size length (.refl _)).1 _ _ (writePath_fields written).1

theorem grow_ok (accepted : h.Accepted math) (inv : h.Inv fun _ => True) (room : h.stash.occupancy < S)
    (low : h.height < maxTreeHeight) : ∃ g, h.grow math = .ok g := by
  obtain ⟨m, grown⟩ : ∃ m, h.growPhysicalStorage = .ok m := ⟨_, if_pos low⟩
  have minv : (m.regrown math).logGrown.Inv fun _ => True := (inv.grow grown).congr rfl rfl rfl
  have overflow : m.overflow = h.overflow := growPhysicalStorage_overflow inv.shape grown
  rw [occupancy_eq] at room
  have mroom : (m.regrown math).logGrown.stash.occupancy < S := by
    rw [occupancy_eq]
    exact (congrArg List.length overflow).trans_lt room
  obtain ⟨g, done⟩ := migrate_ok minv mroom rfl fun i hi => List.mem_range.mp hi
  refine ⟨g, ?_⟩
  rw [grow_of_accepted grown (accepted.grow grown)]
  exact done

end Progress
end ObliviousHistogram

/-- How often an operation can grow the tree or ask for a growth. -/
def TreeOp.growths : TreeOp K V → Nat
  | .append _ _ => 1
  | .appendBatch updates => updates.length
  | .grow => 1
  | .applyDeferredGrow _ => 1
  | _ => 0

/-- The part the tree plays after an operation, if it was `duty` before. -/
def TreeOp.nextDuty (duty : Option (Bool × Bool)) : TreeOp K V → Option (Bool × Bool)
  | .enableAutoResize _ => some (false, true)
  | .enableDeferredAutoResize _ emits => some (true, emits)
  | _ => duty

/-- The assertions of an operation on the part the tree plays and on its configuration. -/
def TreeOp.Allowed (math : ResizeMath) (duty : Option (Bool × Bool)) : TreeOp K V → Prop
  | .enableAutoResize cfg => (∃ sampler, math.newSampler cfg.eps = .ok sampler) ∧ math.Accepts cfg.alpha
  | .enableDeferredAutoResize cfg _ => (∃ sampler, math.newSampler cfg.eps = .ok sampler) ∧ math.Accepts cfg.alpha
  | .takeDeferredSignal => duty = some (true, true)
  | .handleDeferredResize => duty = some (true, true)
  | .applyDeferredGrow _ => ∃ emits, duty = some (true, emits)
  | _ => True

/-- The operations of a run are allowed where they come. -/
def AllAllowed (math : ResizeMath) : Option (Bool × Bool) → List (TreeOp K V) → Prop
  | _, [] => True
  | duty, op :: ops => op.Allowed math duty ∧ AllAllowed math (op.nextDuty duty) ops

namespace ObliviousHistogram
variable {h g : ObliviousHistogram Z K A S V}

/-- What an operation can cost. -/
structure Afforded (op : TreeOp K V) (h g : ObliviousHistogram Z K A S V) : Prop where
  duty : g.duty = op.nextDuty h.duty
  growths : g.height + g.owed ≤ h.height + h.owed + op.growths
  overflow : g.stash.occupancy ≤ h.stash.occupancy + (op.inserts h.prf).length

theorem exists_duty {deferred emits : Bool} (duty : h.duty = some (deferred, emits)) :
    ∃ auto, h.autoResize = some auto ∧ auto.deferred = deferred ∧ auto.emitsGrowSignal = emits := by
  obtain ⟨auto, before, same⟩ := Option.map_eq_some_iff.mp duty
  exact ⟨auto, before, congrArg Prod.fst same, congrArg Prod.snd same⟩

section Runs
variable [Add V] [Inhabited V]

omit [Add V] [Inhabited V] in
theorem length_inserts (prf : Aes128) (updates : List (PreparedUpdate K V)) :
    ((TreeOp.appendBatch updates).inserts prf).length = realUpdates updates := by
  rw [TreeOp.inserts, ← List.countP_eq_length_filter, List.countP_map, List.countP_filter, realUpdates]
  refine List.countP_congr fun u _ => ?_
  simp [and_comm]

omit [Add V] [Inhabited V] in
theorem configureAutoResize_ok {cfg : AutoResizeConfig}
    (allowed : (∃ sampler, math.newSampler cfg.eps = .ok sampler) ∧ math.Accepts cfg.alpha) (deferChecks emits : Bool) : ∃ g, h.configureAutoResize math cfg deferChecks emits = .ok g ∧
      g.duty = some (deferChecks, emits) ∧ g.owed = 0 ∧ g.height = h.height ∧ g.stash = h.stash := by
  obtain ⟨⟨sampler, made⟩, accepts⟩ := allowed
  exact ⟨_, configureAutoResize_of_accepts made accepts deferChecks emits, rfl, rfl, rfl, rfl⟩

omit [Add V] in
theorem applyDeferredAutoResizeGrow_ok (accepted : h.Accepted math) {emits : Bool} (duty : h.duty = some (true, emits))
    (low : h.height < maxTreeHeight) (target : Nat) : ∃ g, h.applyDeferredAutoResizeGrow math target = .ok g := by
  obtain ⟨auto, before, deferred, -⟩ := exists_duty duty
  have raccepted : ({ h with autoResize := some auto.resetCounters } : ObliviousHistogram Z K A S V).Accepted math :=
    fun auto' on => by
      obtain rfl := Option.some.inj on
      exact accepted auto before
  rw [applyDeferredAutoResizeGrow, before, Option.map_some, deferred]
  exact applyAutoResizeGrow_ok raccepted (by exact low) target

omit [Add V] in
theorem applyDeferredAutoResizeGrow_afforded {target : Nat} (run : h.applyDeferredAutoResizeGrow math target = .ok g) :
    g.duty = h.duty ∧ g.owed = 0 ∧ g.height = h.height + 1 := by
  have grown := applyDeferredAutoResizeGrow_grown run
  have after := grown.autoResize
  have height : g.height = h.height + 1 := grown.height
  cases before : h.autoResize with
  | none =>
    obtain ⟨deferred, -⟩ := applyDeferredAutoResizeGrow_spec run
    rw [before] at deferred
    exact absurd deferred (by simp)
  | some auto =>
    simp only [before, Option.map_some] at after
    refine ⟨?_, ?_, height⟩
    · rw [ObliviousHistogram.duty, ObliviousHistogram.duty, after, before]
      rfl
    · rw [ObliviousHistogram.owed, after]
      rfl

omit [Add V] [Inhabited V] in
theorem TreeOp.Routine.growths_eq {op : TreeOp K V} (routine : op.Routine) : op.growths = op.slots := by
  cases op with
  | append | appendBatch | readTotal | readDummy | flush | handleDeferredResize => rfl
  | grow | enableAutoResize | enableDeferredAutoResize | takeDeferredSignal | applyDeferredGrow => exact routine.elim

omit [Add V] [Inhabited V] in
theorem TreeOp.Routine.nextDuty_eq {op : TreeOp K V} (routine : op.Routine) (duty : Option (Bool × Bool)) :
    op.nextDuty duty = duty := by
  cases op with
  | append | appendBatch | readTotal | readDummy | flush | handleDeferredResize => rfl
  | grow | enableAutoResize | enableDeferredAutoResize | takeDeferredSignal | applyDeferredGrow => exact routine.elim

/-- A routine operation costs what its slots pay for. -/
theorem Afforded.of_routine (math : ResizeMath) (op : TreeOp K V) (inv : h.Inv fun _ => True) (routine : op.Routine)
    {out : Option V} (run : h.step math op = .ok (out, g))
    (overflow : g.stash.occupancy ≤ h.stash.occupancy + (op.inserts h.prf).length) : Afforded op h g := by
  obtain ⟨duty, -, growths⟩ := Funded.step inv routine run
  have slots := step_slots inv routine run
  have same := TreeOp.Routine.growths_eq routine
  exact ⟨duty.trans (TreeOp.Routine.nextDuty_eq routine _).symm, by omega, overflow⟩

omit [Add V] [Inhabited V] in
theorem takeDeferredAutoResizeSignal_ok (duty : h.duty = some (true, true)) :
    ∃ auto g, h.autoResize = some auto ∧ h.takeDeferredAutoResizeSignal = .ok (auto.pendingGrow, g) ∧
      g.duty = some (true, true) ∧ g.owed = 0 ∧ g.height = h.height ∧ g.stash = h.stash := by
  obtain ⟨auto, before, deferred, emits⟩ := exists_duty duty
  refine ⟨auto, { h with autoResize := some { auto with pendingGrow := none } }, before, ?_, ?_, rfl, rfl, rfl⟩
  · rw [takeDeferredAutoResizeSignal, before]
    simp only [deferred, emits, Bool.and_self, if_true]
  · exact congrArg some (Prod.ext deferred emits)

omit [Add V] in
theorem handleDeferredResize_ok (accepted : h.Accepted math) (duty : h.duty = some (true, true))
    (low : h.height + h.owed ≤ maxTreeHeight) : ∃ g, h.handleDeferredResize math = .ok g := by
  obtain ⟨auto, m, before, taken, mrole, -, height, -⟩ := takeDeferredAutoResizeSignal_ok duty
  rw [handleDeferredResize, taken]
  cases asked : auto.pendingGrow with
  | none => exact ⟨m, rfl⟩
  | some target =>
    have owed : h.owed = 1 := by
      rw [ObliviousHistogram.owed, before, Option.bind_some, asked]
      rfl
    exact applyDeferredAutoResizeGrow_ok (accepted.take taken) mrole (by omega) target

omit [Add V] in
theorem handleDeferredResize_lower (inv : h.Inv fun _ => True) (run : h.handleDeferredResize math = .ok g) :
    g.stash.occupancy ≤ h.stash.occupancy := by
  obtain ⟨auto, -, ⟨-, rfl⟩ | ⟨target, -, grown⟩⟩ := handleDeferredResize_spec run
  · exact Nat.le_refl _
  · exact (applyDeferredAutoResizeGrow_peak inv.shape grown).1.le

/-- An operation with room in the overflow and a level to spare does not panic. -/
theorem step_ok (accepted : h.Accepted math) (pos : 0 < A) (inv : h.Inv fun _ => True) {op : TreeOp K V}
    (allowed : op.Allowed math h.duty)
    (room : h.stash.occupancy + (op.inserts h.prf).length < S) (low : h.height + h.owed + op.growths ≤ maxTreeHeight) :
    ∃ out g, h.step math op = .ok (out, g) ∧ Afforded op h g := by
  have lift : ∀ {x : Except Panic (ObliviousHistogram Z K A S V)} {g : ObliviousHistogram Z K A S V}, x = .ok g →
      (do return (none, ← x) : Except Panic (Option V × ObliviousHistogram Z K A S V)) = .ok (none, g) := by
    rintro _ g rfl
    rfl
  cases op with
  | append key val =>
    have low : h.height + h.owed + 1 ≤ maxTreeHeight := low
    obtain ⟨g, run, lower⟩ := append_ok accepted inv room (by omega)
    exact ⟨none, g, lift run, .of_routine math (.append key val) inv trivial (lift run) lower⟩
  | appendBatch updates =>
    rw [length_inserts] at room
    obtain ⟨g, run, lower⟩ := batch_ok accepted pos inv room low
    rw [← length_inserts h.prf] at lower
    exact ⟨none, g, lift run, .of_routine math (.appendBatch updates) inv trivial (lift run) lower⟩
  | readTotal key =>
    obtain ⟨⟨v, g⟩, run⟩ := readTotal_ok inv (by omega) key
    have step : h.step math (.readTotal key) = .ok (some v, g) := by
      rw [ObliviousHistogram.step, run]
      rfl
    exact ⟨some v, g, step, .of_routine math (.readTotal key) inv trivial step (readTotal_lower inv run)⟩
  | readDummy draw =>
    obtain ⟨g, run⟩ := readDummy_ok inv (by omega) draw
    exact ⟨none, g, lift run, .of_routine math (.readDummy draw) inv trivial (lift run) (readDummy_lower inv run)⟩
  | flush => exact ⟨none, h, rfl, .of_routine math .flush inv trivial rfl (Nat.le_refl _)⟩
  | grow =>
    have low : h.height + h.owed + 1 ≤ maxTreeHeight := low
    obtain ⟨g, run⟩ := grow_ok accepted inv (by omega) (by omega)
    have grown := grow_grown run
    have height := grown.height
    have owed : g.owed = h.owed := by
      rw [ObliviousHistogram.owed, grown.autoResize, ObliviousHistogram.owed]
      cases h.autoResize <;> rfl
    refine ⟨none, g, lift run, ?_, ?_, (grow_peak inv run).1⟩
    · rw [ObliviousHistogram.duty, grown.autoResize, Option.map_map]
      rfl
    · rw [TreeOp.growths]
      omega
  | enableAutoResize cfg =>
    obtain ⟨g, run, duty, owed, height, stash⟩ := configureAutoResize_ok (h := h) allowed false true
    exact ⟨none, g, lift run, duty, by omega, by rw [stash]; exact Nat.le_refl _⟩
  | enableDeferredAutoResize cfg emits =>
    obtain ⟨g, run, duty, owed, height, stash⟩ := configureAutoResize_ok (h := h) allowed true emits
    exact ⟨none, g, lift run, duty, by omega, by rw [stash]; exact Nat.le_refl _⟩
  | takeDeferredSignal =>
    obtain ⟨auto, g, -, taken, duty, owed, height, stash⟩ := takeDeferredAutoResizeSignal_ok allowed
    have step : h.step math .takeDeferredSignal = .ok (none, g) := by
      rw [ObliviousHistogram.step, taken]
      rfl
    exact ⟨none, g, step, duty.trans (Eq.symm allowed), by omega, by rw [stash]; exact Nat.le_refl _⟩
  | applyDeferredGrow target =>
    have low : h.height + h.owed + 1 ≤ maxTreeHeight := low
    obtain ⟨emits, duty⟩ := allowed
    obtain ⟨g, run⟩ := applyDeferredAutoResizeGrow_ok accepted duty (by omega) target
    obtain ⟨duty, owed, height⟩ := applyDeferredAutoResizeGrow_afforded run
    refine ⟨none, g, lift run, duty, ?_, (applyDeferredAutoResizeGrow_peak inv.shape run).1.le⟩
    rw [TreeOp.growths]
    omega
  | handleDeferredResize =>
    obtain ⟨g, run⟩ := handleDeferredResize_ok accepted allowed (by omega)
    exact ⟨none, g, lift run, .of_routine math .handleDeferredResize inv trivial (lift run)
      (handleDeferredResize_lower inv run)⟩

/-- Whole runs. -/
theorem run_ok (accepted : h.Accepted math) (pos : 0 < A) (inv : h.Inv fun _ => True) {ops : List (TreeOp K V)}
    (allowed : AllAllowed math h.duty ops)
    (room : h.stash.occupancy + (ops.map fun op => (op.inserts h.prf).length).sum < S)
    (low : h.height + h.owed + (ops.map TreeOp.growths).sum ≤ maxTreeHeight) :
    ∃ outs g, h.run math ops = .ok (outs, g) := by
  induction ops generalizing h with
  | nil => exact ⟨[], h, rfl⟩
  | cons op ops ih =>
    obtain ⟨here, later⟩ := allowed
    rw [List.map_cons, List.sum_cons] at room low
    obtain ⟨out, m, step, duty, growths, overflow⟩ := step_ok accepted pos inv here (by omega) (by omega)
    obtain ⟨minv, prf, -⟩ := step_inv inv (fun _ _ => trivial) step
    obtain ⟨outs, g, run⟩ := ih (accepted.step inv step) minv (duty ▸ later) (by rw [prf]; omega) (by omega)
    refine ⟨out :: outs, g, ?_⟩
    rw [ObliviousHistogram.run, step]
    change (m.run math ops >>= fun r => pure (out :: r.1, r.2)) = _
    rw [run]
    rfl

/-- Runs of a new tree. -/
theorem runNew_ok (math : ResizeMath) (pos : 0 < A) {cap height : Nat} (start : treeHeightForCapacity cap Z = .ok height)
    (prf : Aes128) {ops : List (TreeOp K V)} (allowed : AllAllowed math none ops)
    (room : (ops.map fun op => (op.inserts prf).length).sum < S)
    (low : height + (ops.map TreeOp.growths).sum ≤ maxTreeHeight) :
    ∃ (outs : List (Option V)) (h : ObliviousHistogram Z K A S V), runNew math cap prf ops = .ok (outs, h) := by
  obtain ⟨h₀, made⟩ : ∃ h₀ : ObliviousHistogram Z K A S V, new cap prf = .ok h₀ := by
    rw [new, start]
    exact ⟨_, rfl⟩
  obtain ⟨inv, empty, hprf, -, auto⟩ : h₀.Inv (fun _ => True) ∧ _ := new_spec made
  have level : h₀.height = height := by
    rw [new, start] at made
    exact (congrArg ObliviousHistogram.height (Except.ok.inj made)).symm
  have duty : h₀.duty = none := by rw [ObliviousHistogram.duty, auto, Option.map_none]
  have owed : h₀.owed = 0 := by
    rw [ObliviousHistogram.owed, auto]
    rfl
  have nothing : h₀.stash.occupancy = 0 := by
    rw [occupancy_eq]
    rw [contents] at empty
    exact congrArg List.length (List.append_eq_nil_iff.mp empty).2
  have accepted : h₀.Accepted math := fun auto' on => absurd (auto.symm.trans on) (by simp)
  obtain ⟨outs, h, run⟩ := run_ok accepted pos inv (duty ▸ allowed)
    (by rw [hprf, nothing, Nat.zero_add]; exact room) (by rw [level, owed, Nat.add_zero]; exact low)
  refine ⟨outs, h, ?_⟩
  rw [runNew, made]
  exact run

end Runs
end ObliviousHistogram

end Roga
