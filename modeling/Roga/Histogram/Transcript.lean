import Roga.Histogram.Control
import Roga.Histogram.Pace
import Roga.Probability.SparseVector

/-! The transcript of a tree: what an observer of the memory sees, with the resize checks
in their places. It is what the sparse vector mechanism of the estimator shows. -/
namespace Roga
open Ct Reals ObliviousStash SparseVector
variable {Z K A S : Nat} {V : Type} {math : ResizeMath}

/-- An event as a step of the mechanism. -/
def Event.step (marked : Bool) : Event → Option (Step PublicEvent)
  | .slot => some (.slot marked)
  | .access leaf => some (.shown (.access leaf))
  | .sibling leaf => some (.shown (.sibling leaf))
  | .evict leaf => some (.shown (.evict leaf))
  | .signal cSum result => some (.query cSum result.isSome)
  | .grown _ => some .renew
  | _ => none

/-- The number of insert slots so far. -/
def slotsOf (trace : List Event) : Nat := trace.count .slot

/-- The steps of a trace, latest first; `marks` tells which insert slots are marked. -/
def traceSteps (marks : Nat → Bool) : List Event → List (Step PublicEvent)
  | [] => []
  | event :: trace => (event.step (marks (slotsOf trace))).toList ++ traceSteps marks trace

/-- What an observer sees of a step. -/
def publicStep : Step PublicEvent → Option PublicEvent
  | .shown event => some event
  | .slot _ => some .slot
  | .query _ _ => none
  | .renew => some .grown

theorem publicOf_steps (marks : Nat → Bool) (trace : List Event) :
    publicOf trace = (traceSteps marks trace).filterMap publicStep := by
  induction trace with
  | nil => rfl
  | cons event trace ih =>
    rw [traceSteps, List.filterMap_append, ← ih]
    cases event <;> rfl

theorem publicStep_seen (step : Step PublicEvent) : publicStep step.seen = publicStep step := by
  cases step <;> rfl

theorem slotsOf_append (new trace : List Event) : slotsOf (new ++ trace) = slotsOf new + slotsOf trace :=
  List.count_append

theorem traceSteps_append (marks : Nat → Bool) (new trace : List Event) :
    traceSteps marks (new ++ trace) = traceSteps (fun n => marks (slotsOf trace + n)) new ++ traceSteps marks trace := by
  induction new with
  | nil => rfl
  | cons event new ih =>
    rw [List.cons_append, traceSteps, traceSteps, ih, slotsOf_append, Nat.add_comm, List.append_assoc]

namespace ObliviousHistogram
variable {h g : ObliviousHistogram Z K A S V} {known : UInt64 × Vector UInt8 K → Prop} {marks : Nat → Bool}

/-- The transcript of a tree, oldest step first. -/
def transcript (marks : Nat → Bool) (h : ObliviousHistogram Z K A S V) : List (Step PublicEvent) :=
  (traceSteps marks h.trace).reverse

/-- `g` is `h` with these steps more and this many slots more. -/
structure Shows (marks : Nat → Bool) (h : ObliviousHistogram Z K A S V) (steps : List (Step PublicEvent))
    (slots : Nat) (g : ObliviousHistogram Z K A S V) : Prop where
  transcript : g.transcript marks = h.transcript marks ++ steps
  slots : slotsOf g.trace = slotsOf h.trace + slots

theorem Shows.of_trace (same : g.trace = h.trace) : Shows marks h [] 0 g := by
  constructor
  · rw [ObliviousHistogram.transcript, ObliviousHistogram.transcript, same, List.append_nil]
  · rw [same, Nat.add_zero]

theorem Shows.of_append (new : List Event) (trace : g.trace = new ++ h.trace) :
    Shows marks h (traceSteps (fun n => marks (slotsOf h.trace + n)) new).reverse (slotsOf new) g := by
  constructor
  · rw [ObliviousHistogram.transcript, ObliviousHistogram.transcript, trace, traceSteps_append, List.reverse_append]
  · rw [trace, slotsOf_append, Nat.add_comm]

theorem Shows.trans {m : ObliviousHistogram Z K A S V} {s t : List (Step PublicEvent)} {i j : Nat}
    (first : Shows marks h s i m) (second : Shows marks m t j g) : Shows marks h (s ++ t) (i + j) g := by
  constructor
  · rw [second.transcript, first.transcript, List.append_assoc]
  · rw [second.slots, first.slots, Nat.add_assoc]

section Evict
variable [Add V] [Inhabited V]

/-- The accesses of an eviction. -/
def evictSteps (h : ObliviousHistogram Z K A S V) : List (Step PublicEvent) :=
  let leaf := evictLeafAt h.height h.evictCtr
  [.shown (.evict leaf), .shown (.access leaf)] ++
    if h.evictCtr + 1 ≤ h.sweepEnd then [.shown (.sibling (leaf ^^^ 1))] else []

omit [Add V] [Inhabited V] in
theorem accumulateResizeAccounting_shows (h : ObliviousHistogram Z K A S V) (leaf : TreeIndex) :
    Shows marks h [] 0 (h.accumulateResizeAccounting leaf) := by
  rw [accumulateResizeAccounting]
  split
  · exact .of_append [.counted _ _ _ _ _] rfl
  · exact .of_trace rfl

theorem evictPrepared_shows (marks : Nat → Bool) (h : ObliviousHistogram Z K A S V) :
    Shows marks h h.evictSteps 0 h.evictPrepared := by
  rw [evictPrepared]
  split
  · rename_i sweeping
    have sweeping : h.evictCtr + 1 ≤ h.sweepEnd := sweeping
    rw [evictSteps, if_pos sweeping]
    refine (Shows.of_append [.sibling _, .access _, .evict _] ?_).trans (accumulateResizeAccounting_shows _ _)
    rfl
  · rename_i idle
    have idle : ¬ h.evictCtr + 1 ≤ h.sweepEnd := idle
    rw [evictSteps, if_neg idle]
    refine (Shows.of_append [.access _, .evict _] ?_).trans (accumulateResizeAccounting_shows _ _)
    rfl

/-- What the check of an eviction that has counted `count` blocks shows, and how it leaves the estimator. -/
inductive Checked (math : ResizeMath) (h : ObliviousHistogram Z K A S V) (count : Nat)
    (g : ObliviousHistogram Z K A S V) : List (Step PublicEvent) → Prop
  | early (early : ∀ auto, h.autoResize = some auto → (auto.recordEviction count).shouldCheckEpoch = false)
      (after : g.autoResize = h.autoResize.map fun auto => auto.recordEviction count) (height : g.height = h.height)
      (epoch : g.epoch = h.epoch) (signals : signalsOf g.trace = signalsOf h.trace) : Checked math h count g []
  | kept (auto : AutoResizeState) (before : h.autoResize = some auto)
      (due : (auto.recordEviction count).shouldCheckEpoch = true) (signal : Option Nat) (next : AutoResizeState)
      (evaluated : (auto.recordEviction count).evaluateSignal math Z = (signal, next))
      (quiet : auto.deferred = true ∨ signal = none)
      (after : g.autoResize = some { next with
        pendingGrow := if auto.deferred && auto.emitsGrowSignal then signal else auto.pendingGrow })
      (height : g.height = h.height) (epoch : g.epoch = h.epoch)
      (signals : signalsOf g.trace = (auto.cSum + count, signal) :: signalsOf h.trace) :
      Checked math h count g [.query ((auto.cSum + count : Nat) : Int) signal.isSome]
  | grown (auto : AutoResizeState) (before : h.autoResize = some auto)
      (due : (auto.recordEviction count).shouldCheckEpoch = true) (target : Nat) (next : AutoResizeState)
      (evaluated : (auto.recordEviction count).evaluateSignal math Z = (some target, next))
      (immediate : auto.deferred = false) (after : g.autoResize = some (next.regrown math Z A (h.height + 1)))
      (height : g.height = h.height + 1) (epoch : g.epoch = saturatingSucc h.epoch)
      (signals : signalsOf g.trace = (auto.cSum + count, some target) :: signalsOf h.trace) :
      Checked math h count g [.query ((auto.cSum + count : Nat) : Int) true, .renew]

section Checked
variable {count : Nat} {tail : List (Step PublicEvent)} {auto : AutoResizeState}

omit [Add V] [Inhabited V] in
theorem Checked.of_early (checked : Checked math h count g tail)
    (early : ∀ auto, h.autoResize = some auto → (auto.recordEviction count).shouldCheckEpoch = false) :
    tail = [] ∧ g.autoResize = h.autoResize.map (fun auto => auto.recordEviction count) ∧ g.height = h.height ∧
      g.epoch = h.epoch ∧ signalsOf g.trace = signalsOf h.trace := by
  cases checked with
  | early _ after height epoch signals => exact ⟨rfl, after, height, epoch, signals⟩
  | kept auto before due | grown auto before due => exact absurd ((early auto before).symm.trans due) Bool.false_ne_true

omit [Add V] [Inhabited V] in
/-- A due check is one query, and a renewal if the tree grows at once. -/
theorem Checked.of_due (checked : Checked math h count g tail) (before : h.autoResize = some auto)
    (due : (auto.recordEviction count).shouldCheckEpoch = true) : ∃ signal next,
    (auto.recordEviction count).evaluateSignal math Z = (signal, next) ∧
      signalsOf g.trace = (auto.cSum + count, signal) :: signalsOf h.trace ∧
      (((auto.deferred = true ∨ signal = none) ∧ tail = [.query ((auto.cSum + count : Nat) : Int) signal.isSome] ∧
        g.autoResize = some { next with
          pendingGrow := if auto.deferred && auto.emitsGrowSignal then signal else auto.pendingGrow } ∧
        g.height = h.height ∧ g.epoch = h.epoch) ∨
      (auto.deferred = false ∧ signal.isSome = true ∧
        tail = [.query ((auto.cSum + count : Nat) : Int) true, .renew] ∧
        g.autoResize = some (next.regrown math Z A (h.height + 1)) ∧ g.height = h.height + 1 ∧
        g.epoch = saturatingSucc h.epoch)) := by
  cases checked with
  | early early => exact absurd ((early auto before).symm.trans due) Bool.false_ne_true
  | kept auto' before' _ signal next evaluated quiet after height epoch signals =>
    obtain rfl := Option.some.inj (before.symm.trans before')
    exact ⟨signal, next, evaluated, signals, .inl ⟨quiet, rfl, after, height, epoch⟩⟩
  | grown auto' before' _ target next evaluated immediate after height epoch signals =>
    obtain rfl := Option.some.inj (before.symm.trans before')
    exact ⟨some target, next, evaluated, signals, .inr ⟨immediate, rfl, rfl, after, height, epoch⟩⟩

end Checked

omit [Add V] in
theorem applyAutoResizeGrow_shows (marks : Nat → Bool) {target : Nat} (run : h.applyAutoResizeGrow math target = .ok g) :
    Shows marks h [.renew] 0 g := by
  obtain ⟨m, grown, -, rfl⟩ := applyAutoResizeGrow_spec run
  obtain ⟨-, -, -, -, -, -, -, -, trace, -⟩ := growPhysicalStorage_spec grown
  exact .of_append [.grown _] (congrArg (_ :: ·) trace)

/-- An eviction shows its accesses and then what its check shows. -/
theorem evictAfterInsert_shows (marks : Nat → Bool) (run : h.evictAfterInsert math = .ok g) :
    ∃ tail, Shows marks h (h.evictSteps ++ tail) 0 g ∧ Checked math h h.evictCount g tail := by
  obtain ⟨w, written, check⟩ := evictAfterInsert_spec run
  have prep := evictPrepared_spec h
  have still := (writePath_still written).trans (updatePeakOverflow_still w)
  have trace : w.updatePeakOverflow.trace = h.evictPrepared.trace := by
    rw [updatePeakOverflow_trace, (writePath_fields written).2]
  generalize w.updatePeakOverflow = m at check still trace
  have shown : Shows marks h h.evictSteps 0 m := by
    have rest := (evictPrepared_shows marks h).trans (.of_trace trace)
    rwa [List.append_nil] at rest
  have state : m.autoResize = h.autoResize.map fun auto => auto.recordEviction h.evictCount := by
    rw [still.autoResize, prep.autoResize, prep.stash]
    rfl
  have height : m.height = h.height := still.height.trans prep.height
  have epoch : m.epoch = h.epoch := still.epoch.trans prep.epoch
  have signals : signalsOf m.trace = signalsOf h.trace := still.signals.trans prep.signals
  have recorded : ∀ {counted}, m.autoResize = some counted →
      ∃ auto, h.autoResize = some auto ∧ counted = auto.recordEviction h.evictCount := fun {counted} before => by
    obtain ⟨auto, here, same⟩ := Option.map_eq_some_iff.mp (state.symm.trans before)
    exact ⟨auto, here, same.symm⟩
  cases checkAndMaybeResizePostEviction_spec check with
  | early same early =>
    subst same
    refine ⟨[], by rwa [List.append_nil], .early (fun auto before => ?_) state height epoch signals⟩
    exact early _ (by rw [state, before, Option.map_some])
  | kept _ before due signal next evaluated quiet same =>
    obtain ⟨auto, here, rfl⟩ := recorded before
    subst same
    exact ⟨_, shown.trans (.of_append [.signal _ signal] rfl),
      .kept auto here due signal next evaluated quiet rfl height epoch (congrArg (_ :: ·) signals)⟩
  | grown _ before due target next evaluated immediate run =>
    obtain ⟨auto, here, rfl⟩ := recorded before
    have grown := applyAutoResizeGrow_grown run
    have logged : Shows marks m [.query _ true] 0
        ({ m with autoResize := some next }.log (.signal (auto.recordEviction h.evictCount).cSum (some target))) :=
      .of_append [.signal _ (some target)] rfl
    refine ⟨_, shown.trans (logged.trans (applyAutoResizeGrow_shows _ run)),
      .grown auto here due target next evaluated immediate ?_ ?_ ?_ ?_⟩
    · exact grown.autoResize.trans (congrArg (fun n => some (next.regrown math Z A (n + 1))) height)
    · exact grown.height.trans (congrArg (· + 1) height)
    · exact grown.epoch.trans (congrArg saturatingSucc epoch)
    · exact grown.signals.trans (congrArg (_ :: ·) signals)

end Evict

section Slots
variable [Add V] [Inhabited V]

/-- The steps of `count` insert slots. -/
def slotSteps (marks : Nat → Bool) (start count : Nat) : List (Step PublicEvent) :=
  (List.range count).map fun i => .slot (marks (start + i))

omit [Add V] [Inhabited V] in
theorem slotSteps_succ (marks : Nat → Bool) (start count : Nat) :
    slotSteps marks start (count + 1) = slotSteps marks start count ++ [.slot (marks (start + count))] := by
  rw [slotSteps, List.range_succ, List.map_append]
  rfl

omit [Add V] [Inhabited V] in
theorem traceSteps_storedEvents (marks : Nat → Bool) (tag : UInt64) (epoch : UInt8) (payload : Vector UInt8 K)
    (trace : List Event) : traceSteps marks (storedEvents tag epoch payload ++ trace) = traceSteps marks trace ∧
      slotsOf (storedEvents tag epoch payload ++ trace) = slotsOf trace := by
  rw [storedEvents]
  split
  · exact ⟨rfl, List.count_cons_of_ne (by simp)⟩
  · exact ⟨rfl, rfl⟩

omit [Add V] [Inhabited V] in
theorem traceSteps_slotEvents (marks : Nat → Bool) (epoch : UInt8) (u : PreparedUpdate K V) (trace : List Event) :
    traceSteps marks ((slotEvents epoch u).reverse ++ trace) = .slot (marks (slotsOf trace)) :: traceSteps marks trace ∧
      slotsOf ((slotEvents epoch u).reverse ++ trace) = slotsOf trace + 1 := by
  have reversed : (slotEvents epoch u).reverse =
      .slot :: if u.2.2.2 &&& 1 ≠ 0 then storedEvents u.1 epoch u.2.2.1 else [] := by
    rw [slotEvents, List.reverse_append, storedEvents]
    split
    · split <;> rfl
    · rfl
  rw [reversed]
  split
  · obtain ⟨steps, slots⟩ := traceSteps_storedEvents marks u.1 epoch u.2.2.1 trace
    constructor
    · rw [List.cons_append, traceSteps, steps, slots]
      rfl
    · rw [slotsOf, List.cons_append, List.count_cons_self, ← slotsOf, slots]
  · exact ⟨rfl, List.count_cons_self⟩

omit [Add V] [Inhabited V] in
theorem traceSteps_logSlots (marks : Nat → Bool) (epoch : UInt8) (updates : List (PreparedUpdate K V))
    (trace : List Event) :
    traceSteps marks ((updates.flatMap (slotEvents epoch)).reverse ++ trace) =
      (slotSteps marks (slotsOf trace) updates.length).reverse ++ traceSteps marks trace ∧
    slotsOf ((updates.flatMap (slotEvents epoch)).reverse ++ trace) = slotsOf trace + updates.length := by
  induction updates using List.reverseRecOn with
  | nil => exact ⟨rfl, rfl⟩
  | append_singleton updates u ih =>
    obtain ⟨steps, slots⟩ := ih
    have one := traceSteps_slotEvents marks epoch u ((updates.flatMap (slotEvents epoch)).reverse ++ trace)
    rw [List.flatMap_append, List.flatMap_singleton, List.reverse_append, List.append_assoc, List.length_append,
      List.length_singleton]
    constructor
    · rw [one.1, steps, slots, slotSteps_succ, List.reverse_append]
      rfl
    · rw [one.2, slots, Nat.add_assoc]

/-- A prepared insertion fills one slot, shows it and evicts if it is due. -/
theorem addPreparedInner_shows (marks : Nat → Bool) (inv : h.Inv known) {tag : UInt64} {val : V} {payload : Vector UInt8 K}
    (knows : tag ≠ 0 → known (tag, payload)) (run : h.addPreparedInner math tag val payload = .ok g) :
    ∃ m, Filled known h 1 [⟨tag, h.epoch, val, payload⟩] m ∧ Shows marks h (slotSteps marks (slotsOf h.trace) 1) 1 m ∧
      (if h.currentEvictInterval ∣ m.appendCtr then m.evictAfterInsert math else .ok m) = .ok g := by
  obtain ⟨stash, inserted, rest⟩ := bind_ok run
  obtain ⟨minv, contents⟩ := insert_step inv knows inserted
  let stored : ObliviousHistogram Z K A S V := ({ h with stash } : ObliviousHistogram Z K A S V).logStored tag payload
  obtain ⟨steps, slots⟩ := traceSteps_storedEvents marks tag h.epoch payload h.trace
  refine ⟨({ stored with appendCtr := stored.appendCtr + 1 } : ObliviousHistogram Z K A S V).log .slot,
    ⟨minv.congr rfl rfl rfl, contents, rfl, rfl, rfl, rfl, rfl, rfl, rfl,
      (List.suffix_append _ _).trans (List.suffix_cons _ _), ?_, ?_, ?_⟩, ⟨?_, ?_⟩, rest⟩
  · change signalsOf (storedEvents tag h.epoch payload ++ h.trace) = _
    rw [storedEvents]
    split <;> rfl
  · change growthsOf (storedEvents tag h.epoch payload ++ h.trace) = _
    rw [storedEvents]
    split <;> rfl
  · rw [reals_stored]
    change historyOf (storedEvents tag h.epoch payload ++ h.trace) = _
    rw [storedEvents]
    split <;> rfl
  · change (traceSteps marks (.slot :: (storedEvents tag h.epoch payload ++ h.trace))).reverse = _
    rw [traceSteps, steps, slots]
    exact List.reverse_cons
  · change slotsOf (.slot :: (storedEvents tag h.epoch payload ++ h.trace)) = _
    rw [slotsOf, List.count_cons_self, ← slotsOf, slots]

/-- A chunk of a batch does the same with its slots. -/
theorem batch_shows (marks : Nat → Bool) (inv : h.Inv known) {updates : List (PreparedUpdate K V)}
    (knows : KnownUpdates known updates) (some : updates ≠ []) (run : h.appendPreparedMaskedBatch math updates = .ok g) :
    let count := h.chunkLen h.currentEvictInterval updates.length
    0 < count ∧ count ≤ updates.length ∧ ∃ m e : ObliviousHistogram Z K A S V,
      Filled known h count ((updates.take count).map (preparedBlock h.epoch)) m ∧
      Shows marks h (slotSteps marks (slotsOf h.trace) count) count m ∧
      (if h.currentEvictInterval ∣ m.appendCtr then m.evictAfterInsert math else .ok m) = .ok e ∧
      e.appendPreparedMaskedBatch math (updates.drop count) = .ok g := by
  intro count
  obtain ⟨period, stash, e, inserted, evicted, run⟩ := appendPreparedMaskedBatch_cons some run
  have within : count ≤ updates.length := Nat.min_le_left ..
  obtain ⟨minv, contents⟩ := batchChunk_step inv (fun u hu => knows u (List.mem_of_mem_take hu)) inserted count
  obtain ⟨steps, slots⟩ := traceSteps_logSlots marks h.epoch (updates.take count) h.trace
  rw [List.length_take_of_le within] at steps slots
  refine ⟨h.chunkLen_pos period (List.length_pos_iff.mpr some), within, _, e, ⟨minv, contents, rfl, rfl, rfl, rfl, rfl,
    rfl, rfl, List.suffix_append _ _, (silent_slots h.epoch _ _).1, (silent_slots h.epoch _ _).2, ?_⟩, ⟨?_, slots⟩,
    evicted, run⟩
  · change historyOf (List.reverse _ ++ h.trace) = _
    rw [← historyOf_slots]
    exact List.filter_append ..
  · change (traceSteps marks (List.reverse _ ++ h.trace)).reverse = _
    rw [steps, List.reverse_append, List.reverse_reverse]
    rfl

theorem evictIf_slots {due : Prop} [Decidable due] (run : (if due then h.evictAfterInsert math else .ok h) = .ok g) :
    slotsOf g.trace = slotsOf h.trace := by
  split at run
  · obtain ⟨tail, shows, -⟩ := evictAfterInsert_shows (fun _ => false) run
    exact shows.slots
  · rw [Except.ok.inj run]

/-- A batch has a slot for each of its updates. -/
theorem appendPreparedMaskedBatch_slots (inv : h.Inv fun _ => True) {updates : List (PreparedUpdate K V)}
    (run : h.appendPreparedMaskedBatch math updates = .ok g) :
    slotsOf g.trace = slotsOf h.trace + updates.length := by
  induction hn : updates.length using Nat.strong_induction_on generalizing h updates with
  | _ n ih =>
    by_cases none : updates = []
    · rw [none, appendPreparedMaskedBatch, dif_pos rfl, Except.ok.injEq] at run
      rw [← run, ← hn, none]
      rfl
    obtain ⟨progress, within, m, e, filled, shows, evicted, rest⟩ := batch_shows (fun _ => false) inv
      (fun _ _ _ _ => trivial) none run
    generalize h.chunkLen h.currentEvictInterval updates.length = count at *
    have moves := evictIf_reshuffle filled.inv.shape.height_le evicted
    have later := ih (updates.drop count).length (by rw [List.length_drop]; omega) (moves.inv filled.inv) rest rfl
    rw [later, evictIf_slots evicted, shows.slots, List.length_drop]
    omega

end Slots

section Reads
variable [Add V] [Inhabited V]

theorem readPreparedTotal_shows (marks : Nat → Bool) {tag : UInt64} {payload : Vector UInt8 K} {v : V}
    (run : h.readPreparedTotal tag payload = .ok (v, g)) : Shows marks h [.shown (.access (toLeaf tag h.height))] 0 g := by
  obtain ⟨-, w, written, rfl⟩ := readPreparedTotal_spec run
  refine .of_append [.removed payload.toList, .access (toLeaf tag h.height)] ?_
  rw [updatePeakOverflow_trace, (writePath_fields written).2]
  rfl

theorem readDummy_shows (marks : Nat → Bool) {draw : Nat} (run : h.readDummy draw = .ok g) :
    Shows marks h [.shown (.access (leafCount h.height ||| draw % leafCount h.height))] 0 g := by
  obtain ⟨w, written, run⟩ := bind_ok run
  simp only [pure, Except.pure, Except.ok.injEq] at run
  subst run
  refine .of_append [.access (leafCount h.height ||| draw % leafCount h.height)] ?_
  rw [updatePeakOverflow_trace, (writePath_fields written).2]
  rfl

omit [Add V] in
theorem applyDeferredAutoResizeGrow_shows (marks : Nat → Bool) {target : Nat}
    (run : h.applyDeferredAutoResizeGrow math target = .ok g) : Shows marks h [.renew] 0 g := by
  have grown := applyAutoResizeGrow_shows marks (applyDeferredAutoResizeGrow_spec run).2
  exact ⟨grown.transcript, grown.slots⟩

end Reads
end ObliviousHistogram
end Roga
