import Roga.Histogram.RunProofs

/-! What the operations do to the counters and the resize state of a tree. -/
namespace Roga
open Ct Reals ObliviousStash
variable {Z K A S : Nat} {V : Type} {math : ResizeMath}

namespace ObliviousHistogram
variable {h h' : ObliviousHistogram Z K A S V}

/-- Counters and resize state as they were. -/
structure Still (h h' : ObliviousHistogram Z K A S V) : Prop where
  height : h'.height = h.height
  epoch : h'.epoch = h.epoch
  appendCtr : h'.appendCtr = h.appendCtr
  evictCtr : h'.evictCtr = h.evictCtr
  sweepEnd : h'.sweepEnd = h.sweepEnd
  autoResize : h'.autoResize = h.autoResize
  signals : signalsOf h'.trace = signalsOf h.trace
  growths : growthsOf h'.trace = growthsOf h.trace
  history : historyOf h'.trace = historyOf h.trace

/-- One eviction has been counted. -/
structure Ticked (h h' : ObliviousHistogram Z K A S V) : Prop where
  height : h'.height = h.height
  epoch : h'.epoch = h.epoch
  appendCtr : h'.appendCtr = h.appendCtr
  evictCtr : h'.evictCtr = h.evictCtr + 1
  sweepEnd : h'.sweepEnd = h.sweepEnd
  growths : growthsOf h'.trace = growthsOf h.trace

/-- The tree has grown by one level. -/
structure Grown (math : ResizeMath) (h h' : ObliviousHistogram Z K A S V) : Prop where
  height : h'.height = h.height + 1
  epoch : h'.epoch = saturatingSucc h.epoch
  appendCtr : h'.appendCtr = h.appendCtr
  evictCtr : h'.evictCtr = h.evictCtr
  sweepEnd : h'.sweepEnd = h.evictCtr + leafCount h.height
  autoResize : h'.autoResize = h.autoResize.map fun auto => auto.regrown math Z A (h.height + 1)
  signals : signalsOf h'.trace = signalsOf h.trace
  growths : growthsOf h'.trace = h.autoResize.map AutoResizeState.window :: growthsOf h.trace
  history : historyOf h'.trace = historyOf h.trace

theorem Still.refl (h : ObliviousHistogram Z K A S V) : Still h h := ⟨rfl, rfl, rfl, rfl, rfl, rfl, rfl, rfl, rfl⟩

theorem Still.trans {g : ObliviousHistogram Z K A S V} (first : Still h g) (second : Still g h') : Still h h' :=
  ⟨second.height.trans first.height, second.epoch.trans first.epoch, second.appendCtr.trans first.appendCtr,
    second.evictCtr.trans first.evictCtr, second.sweepEnd.trans first.sweepEnd,
    second.autoResize.trans first.autoResize, second.signals.trans first.signals,
    second.growths.trans first.growths, second.history.trans first.history⟩

theorem Grown.of_still {g : ObliviousHistogram Z K A S V} (grown : Grown math h g) (still : Still g h') :
    Grown math h h' :=
  ⟨still.height.trans grown.height, still.epoch.trans grown.epoch, still.appendCtr.trans grown.appendCtr,
    still.evictCtr.trans grown.evictCtr, still.sweepEnd.trans grown.sweepEnd,
    still.autoResize.trans grown.autoResize, still.signals.trans grown.signals,
    still.growths.trans grown.growths, still.history.trans grown.history⟩

section Frames
variable [Add V] [Inhabited V]

omit [Add V] [Inhabited V] in
theorem updatePeakOverflow_still (h : ObliviousHistogram Z K A S V) : Still h h.updatePeakOverflow := by
  rw [updatePeakOverflow]
  split <;> exact ⟨rfl, rfl, rfl, rfl, rfl, rfl, rfl, rfl, rfl⟩

theorem writePath_still {leaf : TreeIndex} (run : h.writePath leaf = .ok h') : Still h h' := by
  obtain ⟨-, fields⟩ := writePath_fields run
  rw [fields]
  exact ⟨rfl, rfl, rfl, rfl, rfl, rfl, rfl, rfl, rfl⟩

theorem access_still (h : ObliviousHistogram Z K A S V) (leaf : TreeIndex) :
    Still h ((h.readPath leaf).mergePath leaf) := ⟨rfl, rfl, rfl, rfl, rfl, rfl, rfl, rfl, rfl⟩

theorem readPreparedTotal_still {tag : UInt64} {payload : Vector UInt8 K} {v : V}
    (run : h.readPreparedTotal tag payload = .ok (v, h')) : Still (h.log (.removed payload.toList)) h' := by
  obtain ⟨-, g, written, rfl⟩ := readPreparedTotal_spec run
  have read : Still (h.log (.removed payload.toList)) (h.removedPath (toLeaf tag h.height) payload) :=
    ⟨rfl, rfl, rfl, rfl, rfl, rfl, rfl, rfl, rfl⟩
  exact read.trans ((writePath_still written).trans (updatePeakOverflow_still g))

theorem readDummy_still {draw : Nat} (run : h.readDummy draw = .ok h') : Still h h' := by
  obtain ⟨g, written, run⟩ := bind_ok run
  simp only [pure, Except.pure, Except.ok.injEq] at run
  subst run
  exact (access_still h _).trans ((writePath_still written).trans (updatePeakOverflow_still g))

omit [Add V] in
theorem applyAutoResizeGrow_grown {target : Nat} (run : h.applyAutoResizeGrow math target = .ok h') :
    Grown math h h' := by
  obtain ⟨g, grown, -, rfl⟩ := applyAutoResizeGrow_spec run
  obtain ⟨-, height, -, epoch, sweepEnd, evictCtr, appendCtr, autoResize, trace, -⟩ :=
    growPhysicalStorage_spec grown
  refine ⟨height, epoch, appendCtr, evictCtr, sweepEnd, ?_, ?_, ?_, ?_⟩
  · change g.autoResize.map _ = _
    rw [autoResize, height]
  · change signalsOf g.trace = _
    rw [trace]
  · change (g.autoResize.map fun auto => auto.regrown math Z A g.height).map _ :: growthsOf g.trace = _
    rw [trace, autoResize, Option.map_map]
    rfl
  · change historyOf g.trace = _
    rw [trace]

omit [Add V] in
theorem applyDeferredAutoResizeGrow_grown {target : Nat}
    (run : h.applyDeferredAutoResizeGrow math target = .ok h') :
    Grown math { h with autoResize := h.autoResize.map AutoResizeState.resetCounters } h' := by
  exact applyAutoResizeGrow_grown (applyDeferredAutoResizeGrow_spec run).2

/-- A manual growth is the same step, then a rewrite of every path. -/
theorem grow_grown (run : h.grow math = .ok h') : Grown math h h' := by
  obtain ⟨g, grown, accepted, run⟩ := grow_spec run
  have first : Grown math h ((g.regrown math).logGrown) :=
    applyAutoResizeGrow_grown (applyAutoResizeGrow_of_accepted grown accepted 0)
  refine first.of_still ?_
  have migrate : ∀ (leaves : List Nat) (a b : ObliviousHistogram Z K A S V) (count : Nat),
      leaves.foldlM (fun h i => ((h.readPath (count + i)).mergePath (count + i)).writePath (count + i)) a =
        .ok b → Still a b := by
    intro leaves a b count run
    induction leaves generalizing a with
    | nil =>
      simp only [List.foldlM_nil, pure, Except.pure, Except.ok.injEq] at run
      exact run ▸ .refl a
    | cons i leaves ih =>
      rw [List.foldlM_cons] at run
      obtain ⟨m, step, run⟩ := bind_ok run
      exact (access_still a _).trans ((writePath_still step).trans (ih m run))
  exact migrate _ _ _ _ run

end Frames

section Evict
variable [Add V] [Inhabited V]

/-- What an eviction adds to the resize statistic. -/
def evictCount (h : ObliviousHistogram Z K A S V) : Nat :=
  (h.mergedStash (evictLeafAt h.height h.evictCtr)).countMatchingBlocks h.height
    (evictLeafAt h.height h.evictCtr) h.epoch

/-- What an eviction that counts `count` blocks does to the resize state. -/
inductive Evicted (math : ResizeMath) (h : ObliviousHistogram Z K A S V) (count : Nat)
    (h' : ObliviousHistogram Z K A S V) : Prop
  | off (ticked : Ticked h h') (before : h.autoResize = none) (after : h'.autoResize = none)
      (signals : signalsOf h'.trace = signalsOf h.trace) : Evicted math h count h'
  | counted (ticked : Ticked h h') (auto : AutoResizeState) (before : h.autoResize = some auto)
      (early : (auto.recordEviction count).shouldCheckEpoch = false)
      (after : h'.autoResize = some (auto.recordEviction count))
      (signals : signalsOf h'.trace = signalsOf h.trace) : Evicted math h count h'
  | checked (ticked : Ticked h h') (auto : AutoResizeState) (before : h.autoResize = some auto)
      (due : (auto.recordEviction count).shouldCheckEpoch = true) (signal : Option Nat)
      (next : AutoResizeState) (evaluated : (auto.recordEviction count).evaluateSignal math Z = (signal, next))
      (kept : auto.deferred = true ∨ signal = none)
      (after : h'.autoResize = some { next with
        pendingGrow := if auto.deferred && auto.emitsGrowSignal then signal else auto.pendingGrow })
      (signals : signalsOf h'.trace = (auto.cSum + count, signal) :: signalsOf h.trace) :
      Evicted math h count h'
  | grown (auto : AutoResizeState) (before : h.autoResize = some auto)
      (due : (auto.recordEviction count).shouldCheckEpoch = true) (target : Nat) (next : AutoResizeState)
      (evaluated : (auto.recordEviction count).evaluateSignal math Z = (some target, next))
      (immediate : auto.deferred = false) (m : ObliviousHistogram Z K A S V) (ticked : Ticked h m)
      (middle : m.autoResize = some next) (grown : Grown math m h')
      (signals : signalsOf h'.trace = (auto.cSum + count, some target) :: signalsOf h.trace) :
      Evicted math h count h'

variable {count : Nat} {auto : AutoResizeState}

omit [Add V] [Inhabited V] in
theorem Evicted.of_none (step : Evicted math h count h') (before : h.autoResize = none) :
    Ticked h h' ∧ h'.autoResize = none ∧ signalsOf h'.trace = signalsOf h.trace := by
  cases step with
  | off ticked _ after signals => exact ⟨ticked, after, signals⟩
  | counted _ _ before' | checked _ _ before' | grown _ before' =>
    rw [before] at before'
    exact absurd before' (by simp)

omit [Add V] [Inhabited V] in
theorem Evicted.of_early (step : Evicted math h count h') (before : h.autoResize = some auto)
    (early : (auto.recordEviction count).shouldCheckEpoch = false) :
    Ticked h h' ∧ h'.autoResize = some (auto.recordEviction count) ∧
      signalsOf h'.trace = signalsOf h.trace := by
  cases step with
  | off _ before' =>
    rw [before] at before'
    exact absurd before' (by simp)
  | counted ticked auto' before' _ after signals =>
    rw [before, Option.some.injEq] at before'
    exact before' ▸ ⟨ticked, after, signals⟩
  | checked _ auto' before' due | grown auto' before' due =>
    rw [before, Option.some.injEq] at before'
    rw [← before', early] at due
    exact absurd due Bool.false_ne_true

omit [Add V] [Inhabited V] in
/-- A due check is one call of `evaluate_signal`, and a growth if it asks for one at once. -/
theorem Evicted.of_due (step : Evicted math h count h') (before : h.autoResize = some auto)
    (due : (auto.recordEviction count).shouldCheckEpoch = true) : ∃ signal next,
    (auto.recordEviction count).evaluateSignal math Z = (signal, next) ∧
      signalsOf h'.trace = (auto.cSum + count, signal) :: signalsOf h.trace ∧
      ((Ticked h h' ∧ (auto.deferred = true ∨ signal = none) ∧ h'.autoResize = some { next with
        pendingGrow := if auto.deferred && auto.emitsGrowSignal then signal else auto.pendingGrow }) ∨
      (auto.deferred = false ∧ signal ≠ none ∧ ∃ m : ObliviousHistogram Z K A S V, Ticked h m ∧
        m.autoResize = some next ∧ Grown math m h')) := by
  cases step with
  | off _ before' =>
    rw [before] at before'
    exact absurd before' (by simp)
  | counted _ auto' before' early =>
    rw [before, Option.some.injEq] at before'
    rw [← before', due] at early
    exact absurd early.symm Bool.false_ne_true
  | checked ticked auto' before' _ signal next evaluated kept after signals =>
    rw [before, Option.some.injEq] at before'
    subst before'
    exact ⟨signal, next, evaluated, signals, .inl ⟨ticked, kept, after⟩⟩
  | grown auto' before' _ target next evaluated immediate m ticked middle grown signals =>
    rw [before, Option.some.injEq] at before'
    subst before'
    exact ⟨some target, next, evaluated, signals, .inr ⟨immediate, by simp, m, ticked, middle, grown⟩⟩

omit [Add V] [Inhabited V] in
theorem Ticked.signalled {m : ObliviousHistogram Z K A S V} (ticked : Ticked h m) (state : Option AutoResizeState)
    (sum : Nat) (signal : Option Nat) : Ticked h ({ m with autoResize := state }.log (.signal sum signal)) :=
  ⟨ticked.height, ticked.epoch, ticked.appendCtr, ticked.evictCtr, ticked.sweepEnd, ticked.growths⟩

theorem evictAfterInsert_control (run : h.evictAfterInsert math = .ok h') :
    Evicted math h h.evictCount h' := by
  obtain ⟨g, written, check⟩ := evictAfterInsert_spec run
  have prep := evictPrepared_spec h
  have still := (writePath_still written).trans (updatePeakOverflow_still g)
  generalize g.updatePeakOverflow = m at check still
  have ticked : Ticked h m := ⟨still.height.trans prep.height, still.epoch.trans prep.epoch,
    still.appendCtr.trans prep.appendCtr, still.evictCtr.trans prep.evictCtr,
    still.sweepEnd.trans prep.sweepEnd, still.growths.trans prep.growths⟩
  have signals : signalsOf m.trace = signalsOf h.trace := still.signals.trans prep.signals
  have state : m.autoResize = h.autoResize.map fun auto => auto.recordEviction h.evictCount := by
    rw [still.autoResize, prep.autoResize, prep.stash]
    rfl
  have recorded : ∀ {counted}, m.autoResize = some counted →
      ∃ auto, h.autoResize = some auto ∧ counted = auto.recordEviction h.evictCount := fun {counted} before => by
    obtain ⟨auto, here, same⟩ := Option.map_eq_some_iff.mp (state.symm.trans before)
    exact ⟨auto, here, same.symm⟩
  have seen : ∀ (sum : Nat) (signal : Option Nat),
      signalsOf (.signal sum signal :: m.trace) = (sum, signal) :: signalsOf h.trace := fun sum signal => by
    rw [← signals]
    rfl
  cases checkAndMaybeResizePostEviction_spec check with
  | early same early =>
    subst same
    cases before : h.autoResize with
    | none =>
      rw [before, Option.map_none] at state
      exact .off ticked before state signals
    | some auto =>
      rw [before, Option.map_some] at state
      exact .counted ticked auto before (early _ state) state signals
  | kept _ before due signal next evaluated quiet same =>
    obtain ⟨auto, here, rfl⟩ := recorded before
    subst same
    exact .checked (ticked.signalled _ _ _) auto here due signal next evaluated quiet rfl (seen _ _)
  | grown _ before due target next evaluated immediate run =>
    obtain ⟨auto, here, rfl⟩ := recorded before
    have grown := applyAutoResizeGrow_grown run
    exact .grown auto here due target next evaluated immediate _ (ticked.signalled _ _ _) rfl grown
      (grown.signals.trans (seen _ _))

end Evict

section Fill
variable [Add V] [Inhabited V] {known : UInt64 × Vector UInt8 K → Prop}

/-- `count` insert slots have been filled with `blocks` and counted. -/
structure Filled (known : UInt64 × Vector UInt8 K → Prop) (h : ObliviousHistogram Z K A S V) (count : Nat)
    (blocks : List (OramBlock K V)) (m : ObliviousHistogram Z K A S V) : Prop where
  inv : m.Inv known
  contents : m.contents.Perm (reals blocks ++ h.contents)
  prf : m.prf = h.prf
  height : m.height = h.height
  epoch : m.epoch = h.epoch
  appendCtr : m.appendCtr = h.appendCtr + count
  evictCtr : m.evictCtr = h.evictCtr
  sweepEnd : m.sweepEnd = h.sweepEnd
  autoResize : m.autoResize = h.autoResize
  trace : h.trace <:+ m.trace
  signals : signalsOf m.trace = signalsOf h.trace
  growths : growthsOf m.trace = growthsOf h.trace
  history : historyOf m.trace =
    ((reals blocks).map fun b => Event.stored b.payload.toList b.epoch).reverse ++ historyOf h.trace

omit [Add V] [Inhabited V] in
theorem reals_stored (tag : UInt64) (epoch : UInt8) (value : V) (payload : Vector UInt8 K) :
    ((reals [(⟨tag, epoch, value, payload⟩ : OramBlock K V)]).map fun b => Event.stored b.payload.toList b.epoch) =
      storedEvents tag epoch payload := by
  rw [storedEvents]
  by_cases real : tag ≠ 0
  · rw [if_pos real, reals_cons_real (OramBlock.isReal_iff.mpr real)]
    rfl
  · rw [if_neg real, reals_cons_dummy (OramBlock.isReal_eq_false.mpr (not_not.mp real))]
    rfl

omit [Add V] in
theorem reals_slot (epoch : UInt8) (u : PreparedUpdate K V) :
    historyOf (slotEvents epoch u) =
      (reals [preparedBlock epoch u]).map fun b => Event.stored b.payload.toList b.epoch := by
  rw [slotEvents, preparedBlock, updateBlock_eq]
  by_cases on : u.2.2.2 &&& 1 ≠ 0
  · rw [if_pos on, if_pos (by simpa using on), reals_stored, storedEvents]
    split <;> rfl
  · rw [if_neg on, if_neg (by simpa using on), reals_cons_dummy rfl]
    rfl

omit [Add V] in
theorem historyOf_slots (epoch : UInt8) (updates : List (PreparedUpdate K V)) :
    historyOf (updates.flatMap (slotEvents epoch)).reverse = ((reals (updates.map (preparedBlock epoch))).map
      fun b => Event.stored b.payload.toList b.epoch).reverse := by
  rw [historyOf, List.filter_reverse]
  congr 1
  induction updates with
  | nil => rfl
  | cons u updates ih =>
    have head := reals_slot epoch u
    rw [historyOf] at head
    rw [List.flatMap_cons, List.filter_append, ih, head, List.map_cons, ← List.map_append, ← reals_append]
    rfl

omit [Add V] [Inhabited V] in
theorem mem_slots {epoch : UInt8} {updates : List (PreparedUpdate K V)} {e : Event}
    (he : e ∈ (updates.flatMap (slotEvents epoch)).reverse) : e = .slot ∨ ∃ p, e = .stored p epoch := by
  obtain ⟨u, -, he⟩ := List.mem_flatMap.mp (List.mem_reverse.mp he)
  rw [slotEvents, storedEvents] at he
  rcases List.mem_append.mp he with he | he
  · split at he
    · split at he
      · exact .inr ⟨_, List.mem_singleton.mp he⟩
      · simp at he
    · simp at he
  · exact .inl (List.mem_singleton.mp he)

omit [Add V] [Inhabited V] in
theorem silent_slots (epoch : UInt8) (updates : List (PreparedUpdate K V)) (trace : List Event) :
    signalsOf ((updates.flatMap (slotEvents epoch)).reverse ++ trace) = signalsOf trace ∧
      growthsOf ((updates.flatMap (slotEvents epoch)).reverse ++ trace) = growthsOf trace := by
  rw [signalsOf, growthsOf, List.filterMap_append, List.filterMap_append]
  constructor
  · refine (congrArg (· ++ signalsOf trace) (List.filterMap_eq_nil_iff.mpr fun e he => ?_))
    rcases mem_slots he with rfl | ⟨p, rfl⟩ <;> rfl
  · refine (congrArg (· ++ growthsOf trace) (List.filterMap_eq_nil_iff.mpr fun e he => ?_))
    rcases mem_slots he with rfl | ⟨p, rfl⟩ <;> rfl

omit [Add V] [Inhabited V] in
theorem inserted_filled (inv : h.Inv known) {tag : UInt64} {val : V} {payload : Vector UInt8 K}
    (knows : tag ≠ 0 → known (tag, payload)) {stash : ObliviousStash Z K S V}
    (inserted : h.stash.insert tag h.epoch val payload = .ok stash) :
    Filled known h 1 [⟨tag, h.epoch, val, payload⟩]
      ((({ h with stash, appendCtr := h.appendCtr + 1 } : ObliviousHistogram Z K A S V).logStored tag payload).log .slot) := by
  obtain ⟨minv, contents⟩ := insert_step inv knows inserted
  refine ⟨minv.congr rfl rfl rfl, contents, rfl, rfl, rfl, rfl, rfl, rfl, rfl,
    (List.suffix_append _ _).trans (List.suffix_cons _ _), ?_, ?_, ?_⟩
  · change signalsOf (storedEvents tag h.epoch payload ++ h.trace) = _
    rw [storedEvents]
    split <;> rfl
  · change growthsOf (storedEvents tag h.epoch payload ++ h.trace) = _
    rw [storedEvents]
    split <;> rfl
  · rw [reals_stored]
    change historyOf (storedEvents tag h.epoch payload ++ h.trace) = _
    rw [storedEvents]
    split <;> rfl

omit [Add V] in
theorem chunk_filled (inv : h.Inv known) {updates : List (PreparedUpdate K V)} (knows : KnownUpdates known updates)
    {stash : ObliviousStash Z K S V}
    (inserted : h.stash.insertBatch (updates.map fun u => (u.1, h.epoch, u.2.1, u.2.2.1, u.2.2.2)) = .ok stash)
    (count : Nat) : Filled known h count (updates.map (preparedBlock h.epoch))
      ({ h with stash, appendCtr := h.appendCtr + count }.logSlots updates) := by
  obtain ⟨minv, contents⟩ := batchChunk_step inv knows inserted count
  refine ⟨minv, contents, rfl, rfl, rfl, rfl, rfl, rfl, rfl, List.suffix_append _ _, (silent_slots h.epoch _ _).1,
    (silent_slots h.epoch _ _).2, ?_⟩
  change historyOf (List.reverse _ ++ h.trace) = _
  rw [← historyOf_slots]
  exact List.filter_append ..

/-- A prepared insertion fills one slot and evicts if it is due. -/
theorem addPreparedInner_filled (inv : h.Inv known) {tag : UInt64} {val : V} {payload : Vector UInt8 K}
    (knows : tag ≠ 0 → known (tag, payload)) (run : h.addPreparedInner math tag val payload = .ok h') :
    ∃ m, Filled known h 1 [⟨tag, h.epoch, val, payload⟩] m ∧
      (if h.currentEvictInterval ∣ m.appendCtr then m.evictAfterInsert math else .ok m) = .ok h' := by
  obtain ⟨stash, inserted, run⟩ := bind_ok run
  exact ⟨_, inserted_filled inv knows inserted, run⟩

/-- A chunk of a batch does the same with its slots. -/
theorem batch_filled (inv : h.Inv known) {updates : List (PreparedUpdate K V)}
    (knows : KnownUpdates known updates) (some : updates ≠ [])
    (run : h.appendPreparedMaskedBatch math updates = .ok h') :
    0 < h.chunkLen h.currentEvictInterval updates.length ∧ ∃ m e : ObliviousHistogram Z K A S V,
      Filled known h (h.chunkLen h.currentEvictInterval updates.length)
        ((updates.take (h.chunkLen h.currentEvictInterval updates.length)).map (preparedBlock h.epoch)) m ∧
      (if h.currentEvictInterval ∣ m.appendCtr then m.evictAfterInsert math else .ok m) = .ok e ∧
      e.appendPreparedMaskedBatch math
        (updates.drop (h.chunkLen h.currentEvictInterval updates.length)) = .ok h' := by
  obtain ⟨period, stash, e, inserted, evicted, run⟩ := appendPreparedMaskedBatch_cons some run
  exact ⟨h.chunkLen_pos period (List.length_pos_iff.mpr some), _, e,
    chunk_filled inv (fun u hu => knows u (List.mem_of_mem_take hu)) inserted _, evicted, run⟩

end Fill

section Accepted
variable [Add V] [Inhabited V]

omit [Add V] [Inhabited V] in
theorem Accepted.still (accepted : h.Accepted math) (still : Still h h') : h'.Accepted math :=
  accepted.of_eq still.autoResize

omit [Add V] [Inhabited V] in
theorem Accepted.grown (accepted : h.Accepted math) (grown : Grown math h h') : h'.Accepted math := by
  intro auto enabled
  rw [grown.autoResize] at enabled
  obtain ⟨auto₀, before, rfl⟩ := Option.map_eq_some_iff.mp enabled
  exact accepted auto₀ before

/-- Neither a check nor the growth it asks for changes the alpha. -/
theorem Accepted.evict (accepted : h.Accepted math) (run : h.evictAfterInsert math = .ok h') : h'.Accepted math := by
  cases evictAfterInsert_control run with
  | off _ _ after =>
    intro auto enabled
    exact absurd (after.symm.trans enabled) (by simp)
  | counted _ auto before _ after =>
    intro auto' enabled
    obtain rfl := Option.some.inj (after.symm.trans enabled)
    exact accepted auto before
  | checked _ auto before _ signal next evaluated _ after =>
    intro auto' enabled
    obtain rfl := Option.some.inj (after.symm.trans enabled)
    have config := (evaluateSignal_spec evaluated).2.2.1
    change math.Accepts next.config.alpha
    rw [config]
    exact accepted auto before
  | grown auto before _ target next evaluated _ m _ middle grown =>
    refine Accepted.grown (fun auto' enabled => ?_) grown
    obtain rfl := Option.some.inj (middle.symm.trans enabled)
    rw [(evaluateSignal_spec evaluated).2.2.1]
    exact accepted auto before

theorem Accepted.evictIf (accepted : h.Accepted math) {due : Prop} [Decidable due]
    (run : (if due then h.evictAfterInsert math else .ok h) = .ok h') : h'.Accepted math := by
  split at run
  · exact accepted.evict run
  · exact Except.ok.inj run ▸ accepted

theorem Accepted.batch (accepted : h.Accepted math) (inv : h.Inv fun _ => True) {updates : List (PreparedUpdate K V)}
    (run : h.appendPreparedMaskedBatch math updates = .ok h') : h'.Accepted math := by
  induction hn : updates.length using Nat.strong_induction_on generalizing h updates with
  | _ n ih =>
    by_cases some : updates = []
    · rw [some, appendPreparedMaskedBatch, dif_pos rfl, Except.ok.injEq] at run
      exact run ▸ accepted
    obtain ⟨progress, m, e, filled, evicted, run⟩ := batch_filled inv (fun _ _ _ _ => trivial) some run
    have einv : e.Inv fun _ => True := by
      split at evicted
      · exact (evictAfterInsert_reshuffle filled.inv.shape.height_le evicted).inv filled.inv
      · exact Except.ok.inj evicted ▸ filled.inv
    refine ih _ ?_ (Accepted.evictIf (accepted.of_eq filled.autoResize) evicted) einv run rfl
    have := List.length_pos_iff.mpr some
    rw [List.length_drop]
    omega

omit [Add V] [Inhabited V] in
theorem Accepted.take {signal : Option Nat} (accepted : h.Accepted math)
    (run : h.takeDeferredAutoResizeSignal = .ok (signal, h')) : h'.Accepted math := by
  obtain ⟨auto, before, -, -, -, rfl⟩ := takeDeferredAutoResizeSignal_spec run
  intro auto' enabled
  obtain rfl := Option.some.inj enabled
  exact accepted auto before

omit [Add V] in
theorem Accepted.deferredGrow {target : Nat} (accepted : h.Accepted math)
    (run : h.applyDeferredAutoResizeGrow math target = .ok h') : h'.Accepted math := by
  refine Accepted.grown (fun auto' enabled => ?_) (applyDeferredAutoResizeGrow_grown run)
  obtain ⟨auto, before, rfl⟩ := Option.map_eq_some_iff.mp enabled
  exact accepted auto before

omit [Add V] [Inhabited V] in
theorem accepted_of_configureAutoResize {cfg : AutoResizeConfig} {deferChecks emits : Bool}
    (run : h.configureAutoResize math cfg deferChecks emits = .ok h') : h'.Accepted math := by
  obtain ⟨sampler, -, accepts, rfl⟩ := configureAutoResize_spec run
  intro auto enabled
  obtain rfl := Option.some.inj enabled
  exact accepts

/-- An alpha is checked when it is configured, and no operation changes it later. -/
theorem Accepted.step (accepted : h.Accepted math) (inv : h.Inv fun _ => True) {op : TreeOp K V} {out : Option V}
    (run : h.step math op = .ok (out, h')) : h'.Accepted math := by
  cases op with
  | append key val =>
    obtain ⟨g, hg, same⟩ := map_ok run
    obtain ⟨-, rfl⟩ := Prod.mk.inj same
    obtain ⟨m, filled, evicted⟩ := addPreparedInner_filled inv (fun _ => trivial) hg
    exact Accepted.evictIf (accepted.of_eq filled.autoResize) evicted
  | appendBatch updates =>
    obtain ⟨g, hg, same⟩ := map_ok run
    obtain ⟨-, rfl⟩ := Prod.mk.inj same
    exact accepted.batch inv hg
  | readTotal key =>
    obtain ⟨⟨v, g⟩, hg, run⟩ := bind_ok run
    simp only [pure, Except.pure, Except.ok.injEq, Prod.mk.injEq] at run
    obtain ⟨-, rfl⟩ := run
    exact accepted.of_eq (readPreparedTotal_still hg).autoResize
  | readDummy draw =>
    obtain ⟨g, hg, same⟩ := map_ok run
    obtain ⟨-, rfl⟩ := Prod.mk.inj same
    exact accepted.still (readDummy_still hg)
  | flush =>
    simp only [ObliviousHistogram.step, Except.ok.injEq, Prod.mk.injEq] at run
    exact run.2 ▸ accepted
  | grow =>
    obtain ⟨g, hg, same⟩ := map_ok run
    obtain ⟨-, rfl⟩ := Prod.mk.inj same
    exact accepted.grown (grow_grown hg)
  | enableAutoResize cfg =>
    obtain ⟨g, hg, same⟩ := map_ok run
    obtain ⟨-, rfl⟩ := Prod.mk.inj same
    exact accepted_of_configureAutoResize hg
  | enableDeferredAutoResize cfg emits =>
    obtain ⟨g, hg, same⟩ := map_ok run
    obtain ⟨-, rfl⟩ := Prod.mk.inj same
    exact accepted_of_configureAutoResize hg
  | takeDeferredSignal =>
    obtain ⟨⟨signal, g⟩, hg, run⟩ := bind_ok run
    simp only [pure, Except.pure, Except.ok.injEq, Prod.mk.injEq] at run
    obtain ⟨-, rfl⟩ := run
    exact accepted.take hg
  | applyDeferredGrow target =>
    obtain ⟨g, hg, same⟩ := map_ok run
    obtain ⟨-, rfl⟩ := Prod.mk.inj same
    exact accepted.deferredGrow hg
  | handleDeferredResize =>
    obtain ⟨g, hg, same⟩ := map_ok run
    obtain ⟨-, rfl⟩ := Prod.mk.inj same
    obtain ⟨⟨signal, m⟩, taken, applied⟩ := bind_ok hg
    cases signal with
    | some target => exact (accepted.take taken).deferredGrow applied
    | none =>
      simp only [pure, Except.pure, Except.ok.injEq] at applied
      exact applied ▸ accepted.take taken

end Accepted
end ObliviousHistogram
end Roga
