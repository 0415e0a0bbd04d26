import Roga.Histogram.RunProofs

/-! The pace of a tree: the counters that decide when it evicts and which paths it
touches. Every operation is a sequence of moves on the counters alone, with the
growths of the estimator as the only choice. -/
namespace Roga
open Ct
variable {Z K A S : Nat} {V : Type} {math : ResizeMath}

/-- What an observer of the memory sees of a run. -/
inductive PublicEvent
  | slot
  | access (leaf : TreeIndex)
  | sibling (leaf : TreeIndex)
  | evict (leaf : TreeIndex)
  | grown
deriving DecidableEq

/-- The public part of a trace, latest first. -/
def publicOf (trace : List Event) : List PublicEvent :=
  trace.filterMap fun
    | .slot => some .slot
    | .access leaf => some (.access leaf)
    | .sibling leaf => some (.sibling leaf)
    | .evict leaf => some (.evict leaf)
    | .grown _ => some .grown
    | _ => none

structure Counters where
  height : Nat
  epoch : UInt8
  appendCtr : Nat
  evictCtr : Nat
  sweepEnd : Nat
deriving DecidableEq

/-- One slot with the eviction it triggers, which may grow the tree, a path access or a growth. -/
inductive Move
  | slot (grew : Bool)
  | access (leaf : TreeIndex)
  | grow

namespace Counters

/-- `current_evict_interval` -/
def interval (A : Nat) (c : Counters) : Nat := if c.evictCtr < c.sweepEnd then max (A / 2) 1 else A

def grow (c : Counters) : Counters :=
  { c with
    height := c.height + 1
    epoch := ObliviousHistogram.saturatingSucc c.epoch
    sweepEnd := c.evictCtr + leafCount c.height }

def growIf (grew : Bool) (c : Counters) : Counters := if grew then c.grow else c

/-- The counters after an eviction. -/
def evict (grew : Bool) (c : Counters) : Counters := { c with evictCtr := c.evictCtr + 1 }.growIf grew

/-- What an eviction shows, latest first. -/
def evictEvents (grew : Bool) (c : Counters) : List PublicEvent :=
  let leaf := ObliviousHistogram.evictLeafAt c.height c.evictCtr
  (if grew then [.grown] else []) ++ (if c.evictCtr + 1 ≤ c.sweepEnd then [.sibling (leaf ^^^ 1)] else []) ++
    [.access leaf, .evict leaf]

/-- `append_ctr += 1` -/
def count (c : Counters) : Counters := { c with appendCtr := c.appendCtr + 1 }

def move (A : Nat) (c : Counters) : Move → Counters
  | .slot grew => if c.count.interval A ∣ c.count.appendCtr then c.count.evict grew else c.count
  | .access _ => c
  | .grow => c.grow

def events (A : Nat) (c : Counters) : Move → List PublicEvent
  | .slot grew => if c.count.interval A ∣ c.count.appendCtr then c.count.evictEvents grew ++ [.slot] else [.slot]
  | .access leaf => [.access leaf]
  | .grow => [.grown]

def run (A : Nat) (c : Counters) (moves : List Move) : Counters := moves.foldl (move A) c

/-- What a sequence of moves shows, latest first. -/
def shown (A : Nat) (c : Counters) : List Move → List PublicEvent
  | [] => []
  | m :: moves => (c.move A m).shown A moves ++ c.events A m

@[simp] theorem run_nil (c : Counters) : c.run A [] = c := rfl

@[simp] theorem run_cons (c : Counters) (m : Move) (moves : List Move) :
    c.run A (m :: moves) = (c.move A m).run A moves := rfl

theorem run_append (c : Counters) (ms ns : List Move) : c.run A (ms ++ ns) = (c.run A ms).run A ns :=
  List.foldl_append

theorem shown_append (c : Counters) (ms ns : List Move) :
    c.shown A (ms ++ ns) = (c.run A ms).shown A ns ++ c.shown A ms := by
  induction ms generalizing c with
  | nil => exact (List.append_nil _).symm
  | cons m ms ih => rw [List.cons_append, shown, ih, shown, List.append_assoc, run_cons]

theorem events_slot (c : Counters) (grew : Bool) : c.events A (.slot grew) =
    (if c.count.interval A ∣ c.count.appendCtr then c.count.evictEvents grew else []) ++ [.slot] := by
  rw [events]
  split <;> rfl

/-- Slots that make no eviction due. -/
theorem run_early {c : Counters} {n : Nat} (early : ∀ i < n, ¬ c.interval A ∣ c.appendCtr + (i + 1)) :
    c.run A (List.replicate n (.slot false)) = { c with appendCtr := c.appendCtr + n } ∧
      c.shown A (List.replicate n (.slot false)) = List.replicate n .slot := by
  induction n generalizing c with
  | zero => exact ⟨rfl, rfl⟩
  | succ n ih =>
    have first : ¬ c.count.interval A ∣ c.count.appendCtr := early 0 (Nat.succ_pos n)
    have rest := @ih c.count fun i hi due => early (i + 1) (Nat.succ_lt_succ hi) (by
      rwa [Nat.add_comm (i + 1), ← Nat.add_assoc])
    have slot : c.move A (.slot false) = c.count := if_neg first
    have event : c.events A (.slot false) = [.slot] := if_neg first
    constructor
    · rw [List.replicate_succ, run_cons, slot, rest.1]
      exact congrArg (fun a => { c with appendCtr := a }) (Nat.succ_add_eq_add_succ c.appendCtr n)
    · rw [List.replicate_succ, shown, slot, event, rest.2]
      exact List.replicate_succ'.symm

end Counters

namespace ObliviousHistogram
variable {h h' g : ObliviousHistogram Z K A S V} {known : UInt64 × Vector UInt8 K → Prop}

def counters (h : ObliviousHistogram Z K A S V) : Counters where
  height := h.height
  epoch := h.epoch
  appendCtr := h.appendCtr
  evictCtr := h.evictCtr
  sweepEnd := h.sweepEnd

/-- Whether the estimator defers its growths, if it is on. -/
def mode (h : ObliviousHistogram Z K A S V) : Option Bool := h.autoResize.map AutoResizeState.deferred

/-- `h'` is `h` after the moves. -/
structure Moved (h : ObliviousHistogram Z K A S V) (moves : List Move) (h' : ObliviousHistogram Z K A S V) :
    Prop where
  counters : h'.counters = h.counters.run A moves
  shown : publicOf h'.trace = h.counters.shown A moves ++ publicOf h.trace
  height_le : h.height ≤ maxTreeHeight → h'.height ≤ maxTreeHeight

/-- `h'` is `h` after the moves, in the same mode. -/
structure Kept (h : ObliviousHistogram Z K A S V) (moves : List Move) (h' : ObliviousHistogram Z K A S V) : Prop
    extends Moved h moves h' where
  mode : h'.mode = h.mode

theorem Moved.of_same (counters : h'.counters = h.counters) (shown : publicOf h'.trace = publicOf h.trace) :
    Moved h [] h' :=
  ⟨counters, shown, (congrArg Counters.height counters).trans_le⟩

theorem Kept.of_same (counters : h'.counters = h.counters) (shown : publicOf h'.trace = publicOf h.trace)
    (mode : h'.mode = h.mode) : Kept h [] h' := ⟨.of_same counters shown, mode⟩

theorem Kept.refl (h : ObliviousHistogram Z K A S V) : Kept h [] h := .of_same rfl rfl rfl

theorem Moved.trans {ms ns : List Move} (first : Moved h ms g) (second : Moved g ns h') : Moved h (ms ++ ns) h' := by
  refine ⟨?_, ?_, fun low => second.height_le (first.height_le low)⟩
  · rw [second.counters, first.counters, Counters.run_append]
  · rw [second.shown, first.shown, first.counters, Counters.shown_append, List.append_assoc]

theorem Kept.trans {ms ns : List Move} (first : Kept h ms g) (second : Kept g ns h') : Kept h (ms ++ ns) h' :=
  ⟨first.toMoved.trans second.toMoved, second.mode.trans first.mode⟩

section Moves
variable [Add V] [Inhabited V]

theorem writePath_kept {leaf : TreeIndex} (run : h.writePath leaf = .ok h') : Kept h [] h' := by
  obtain ⟨-, fields⟩ := writePath_fields run
  rw [fields]
  exact .of_same rfl rfl rfl

omit [Add V] [Inhabited V] in
theorem updatePeakOverflow_kept (h : ObliviousHistogram Z K A S V) : Kept h [] h.updatePeakOverflow := by
  rw [updatePeakOverflow]
  split
  · exact .of_same rfl rfl rfl
  · exact .refl h

theorem access_kept (h : ObliviousHistogram Z K A S V) (leaf : TreeIndex) :
    Kept h [.access leaf] ((h.readPath leaf).mergePath leaf) := ⟨⟨rfl, rfl, id⟩, rfl⟩

omit [Add V] in
theorem applyAutoResizeGrow_kept {target : Nat} (run : h.applyAutoResizeGrow math target = .ok h') :
    Kept h [.grow] h' := by
  obtain ⟨g, grown, -, rfl⟩ := applyAutoResizeGrow_spec run
  obtain ⟨room, height, -, epoch, sweepEnd, evictCtr, appendCtr, autoResize, trace, -⟩ :=
    growPhysicalStorage_spec grown
  refine ⟨⟨?_, ?_, fun _ => ?_⟩, ?_⟩
  · change g.counters = h.counters.grow
    rw [counters, height, epoch, appendCtr, evictCtr, sweepEnd]
    rfl
  · change .grown :: publicOf g.trace = .grown :: publicOf h.trace
    rw [trace]
  · change g.height ≤ 31
    rw [height]
    exact room
  · change Option.map _ (Option.map _ _) = _
    rw [autoResize, Option.map_map]
    rfl

omit [Add V] in
theorem applyDeferredAutoResizeGrow_kept {target : Nat} (run : h.applyDeferredAutoResizeGrow math target = .ok h') :
    Kept h [.grow] h' := by
  have grown := applyAutoResizeGrow_kept (applyDeferredAutoResizeGrow_spec run).2
  refine ⟨⟨grown.counters, grown.shown, grown.height_le⟩, grown.mode.trans ?_⟩
  change Option.map _ (Option.map _ _) = _
  rw [Option.map_map]
  rfl

omit [Add V] in
/-- The check after an eviction grows the tree or leaves the counters alone. -/
theorem checkAndMaybeResizePostEviction_kept (run : h.checkAndMaybeResizePostEviction math = .ok h') :
    ∃ grew : Bool, (grew = true → h.mode = some false) ∧ Kept h (if grew then [.grow] else []) h' := by
  cases checkAndMaybeResizePostEviction_spec run with
  | early same => exact ⟨false, by simp, same ▸ .refl h⟩
  | kept auto before _ signal next evaluated _ same =>
    obtain ⟨-, -, -, -, deferred, -⟩ := evaluateSignal_spec evaluated
    refine ⟨false, by simp, same ▸ .of_same rfl rfl ?_⟩
    rw [mode, mode, before]
    exact congrArg some deferred
  | grown auto before _ target next evaluated immediate run =>
    obtain ⟨-, -, -, -, deferred, -⟩ := evaluateSignal_spec evaluated
    have mode_eq : h.mode = some auto.deferred := by rw [mode, before, Option.map_some]
    have logged : Kept h [] ({ h with autoResize := some next }.log (.signal auto.cSum (some target))) := by
      refine .of_same rfl rfl ?_
      rw [mode_eq, ← deferred]
      rfl
    exact ⟨true, fun _ => mode_eq.trans (congrArg some immediate), logged.trans (applyAutoResizeGrow_kept run)⟩

omit [Add V] [Inhabited V] in
theorem accumulateResizeAccounting_kept (h : ObliviousHistogram Z K A S V) (leaf : TreeIndex) :
    Kept h [] (h.accumulateResizeAccounting leaf) := by
  rw [accumulateResizeAccounting]
  split
  · rename_i auto enabled
    refine .of_same rfl rfl ?_
    rw [mode, mode, enabled]
    rfl
  · exact .refl h

/-- An eviction shows its leaf and nothing of the blocks. -/
theorem evictAfterInsert_counters (run : h.evictAfterInsert math = .ok h') :
    ∃ grew : Bool, (grew = true → h.mode = some false) ∧ h'.counters = h.counters.evict grew ∧
      publicOf h'.trace = h.counters.evictEvents grew ++ publicOf h.trace ∧ h'.mode = h.mode ∧
      (h.height ≤ maxTreeHeight → h'.height ≤ maxTreeHeight) := by
  obtain ⟨g, written, check⟩ := evictAfterInsert_spec run
  obtain ⟨grew, immediate, checked⟩ := checkAndMaybeResizePostEviction_kept check
  have rest : Kept h.evictPrepared (if grew then [.grow] else []) h' :=
    (writePath_kept written).trans ((updatePeakOverflow_kept g).trans checked)
  have prepared : h.evictPrepared.counters = { h.counters with evictCtr := h.evictCtr + 1 } ∧
      publicOf h.evictPrepared.trace = h.counters.evictEvents false ++ publicOf h.trace ∧
      h.evictPrepared.mode = h.mode := by
    rw [evictPrepared]
    have accounted := fun g : ObliviousHistogram Z K A S V =>
      accumulateResizeAccounting_kept g (evictLeafAt h.height h.evictCtr)
    split
    · rename_i sweeping
      refine ⟨(accounted _).counters, (accounted _).shown.trans ?_, (accounted _).mode⟩
      rw [Counters.evictEvents, if_pos (show h.counters.evictCtr + 1 ≤ h.counters.sweepEnd from sweeping)]
      rfl
    · rename_i idle
      refine ⟨(accounted _).counters, (accounted _).shown.trans ?_, (accounted _).mode⟩
      rw [Counters.evictEvents, if_neg (show ¬ h.counters.evictCtr + 1 ≤ h.counters.sweepEnd from idle)]
      rfl
  have mode : g.updatePeakOverflow.mode = h.mode :=
    ((writePath_kept written).trans (updatePeakOverflow_kept g)).mode.trans prepared.2.2
  refine ⟨grew, fun yes => mode ▸ immediate yes, ?_, ?_, rest.mode.trans prepared.2.2, fun low =>
    rest.height_le ((congrArg Counters.height prepared.1).trans_le low)⟩
  · rw [rest.counters, prepared.1]
    cases grew <;> rfl
  · rw [rest.shown, prepared.1, prepared.2.1]
    cases grew <;> rfl

/-- The eviction of a slot that makes it due. -/
theorem evictIf_counters (run : (if h.currentEvictInterval ∣ h.appendCtr then h.evictAfterInsert math else .ok h) =
    .ok h') : ∃ grew : Bool, (grew = true → h.mode = some false) ∧ h'.mode = h.mode ∧
      (h.height ≤ maxTreeHeight → h'.height ≤ maxTreeHeight) ∧
      h'.counters = (if h.counters.interval A ∣ h.counters.appendCtr then h.counters.evict grew else h.counters) ∧
      publicOf h'.trace = (if h.counters.interval A ∣ h.counters.appendCtr then h.counters.evictEvents grew else []) ++
        publicOf h.trace := by
  split at run
  · rename_i due
    have due : h.counters.interval A ∣ h.counters.appendCtr := due
    obtain ⟨grew, immediate, counters, shown, mode, low⟩ := evictAfterInsert_counters run
    refine ⟨grew, immediate, mode, low, ?_, ?_⟩
    · exact counters.trans (if_pos due).symm
    · rw [if_pos due, shown]
  · rename_i early
    have early : ¬ h.counters.interval A ∣ h.counters.appendCtr := early
    simp only [Except.ok.injEq] at run
    subst run
    refine ⟨false, by simp, rfl, id, ?_, ?_⟩
    · exact (if_neg early).symm
    · rw [if_neg early, List.nil_append]

/-- `finish_append_after_insert` on a tree whose insert has been buffered. -/
theorem finishAppendAfterInsert_kept (run : h.finishAppendAfterInsert math = .ok h') :
    ∃ grew : Bool, (grew = true → h.mode = some false) ∧ Kept h [.slot grew] h' := by
  obtain ⟨grew, immediate, mode, low, counters, shown⟩ := evictIf_counters run
  have counted : (({ h with appendCtr := h.appendCtr + 1 } : ObliviousHistogram Z K A S V).log .slot).counters =
      h.counters.count := rfl
  rw [counted] at counters shown
  refine ⟨grew, immediate, ⟨counters, shown.trans ?_, low⟩, mode⟩
  rw [Counters.shown, Counters.shown, List.nil_append, Counters.events_slot, List.append_assoc]
  rfl

theorem append_kept {key : List UInt8} {val : V} (run : h.append math key val = .ok h') :
    ∃ grew : Bool, (grew = true → h.mode = some false) ∧ Kept h [.slot grew] h' := by
  obtain ⟨stash, inserted, run⟩ := bind_ok run
  obtain ⟨grew, immediate, kept⟩ := finishAppendAfterInsert_kept run
  have stored : ∀ (tag : UInt64) (payload : Vector UInt8 K),
      publicOf (storedEvents tag h.epoch payload ++ h.trace) = publicOf h.trace := by
    intro tag payload
    rw [storedEvents]
    split <;> rfl
  exact ⟨grew, immediate, ⟨kept.counters, kept.shown.trans (congrArg (_ ++ ·) (stored _ _)), kept.height_le⟩, kept.mode⟩

theorem readPreparedTotal_kept {tag : UInt64} {payload : Vector UInt8 K} {v : V}
    (run : h.readPreparedTotal tag payload = .ok (v, h')) : Kept h [.access (toLeaf tag h.height)] h' := by
  obtain ⟨-, g, written, rfl⟩ := readPreparedTotal_spec run
  have removed : Kept h [.access (toLeaf tag h.height)] (h.removedPath (toLeaf tag h.height) payload) :=
    ⟨⟨rfl, rfl, id⟩, rfl⟩
  exact removed.trans ((writePath_kept written).trans (updatePeakOverflow_kept g))

theorem readDummy_kept {draw : Nat} (run : h.readDummy draw = .ok h') :
    Kept h [.access (leafCount h.height ||| draw % leafCount h.height)] h' := by
  obtain ⟨g, written, run⟩ := bind_ok run
  simp only [pure, Except.pure, Except.ok.injEq] at run
  subst run
  exact (access_kept h _).trans ((writePath_kept written).trans (updatePeakOverflow_kept g))

/-- A manual growth is the growth and an access to every leaf. -/
theorem grow_kept (run : h.grow math = .ok h') :
    Kept h (.grow :: (List.range (leafCount (h.height + 1))).map fun i => .access (leafCount (h.height + 1) + i)) h' := by
  obtain ⟨g, grown, accepted, run⟩ := grow_spec run
  have first : Kept h [.grow] ((g.regrown math).logGrown) :=
    applyAutoResizeGrow_kept (applyAutoResizeGrow_of_accepted grown accepted 0)
  have migrate : ∀ (leaves : List Nat) (a b : ObliviousHistogram Z K A S V) (count : Nat),
      leaves.foldlM (fun h i => ((h.readPath (count + i)).mergePath (count + i)).writePath (count + i)) a =
        .ok b → Kept a (leaves.map fun i => .access (count + i)) b := by
    intro leaves a b count run
    induction leaves generalizing a with
    | nil =>
      simp only [List.foldlM_nil, pure, Except.pure, Except.ok.injEq] at run
      exact run ▸ .refl a
    | cons i leaves ih =>
      rw [List.foldlM_cons] at run
      obtain ⟨m, step, run⟩ := bind_ok run
      exact (access_kept a _).trans ((writePath_kept step).trans (ih m run))
  have height : g.height = h.height + 1 := congrArg Counters.height first.counters
  have rest := migrate _ _ _ _ run
  rw [height] at rest
  exact first.trans rest

omit [Add V] [Inhabited V] in
/-- No slot of a chunk but the last makes an eviction due. -/
theorem chunkLen_early (h : ObliviousHistogram Z K A S V) {period remaining i : Nat} (pos : period ≠ 0)
    (hi : i + 1 < h.chunkLen period remaining) : ¬ period ∣ h.appendCtr + (i + 1) := by
  intro due
  have below := Nat.mod_lt h.appendCtr (Nat.pos_of_ne_zero pos)
  have short : h.appendCtr % period + (i + 1) < period := by
    rw [chunkLen] at hi
    split at hi <;> omega
  have phase := Nat.mod_eq_zero_of_dvd due
  rw [Nat.add_mod, Nat.mod_eq_of_lt (show i + 1 < period by omega), Nat.mod_eq_of_lt short] at phase
  omega

omit [Add V] [Inhabited V] in
theorem publicOf_slots (epoch : UInt8) (updates : List (PreparedUpdate K V)) (trace : List Event) :
    publicOf ((updates.flatMap (slotEvents epoch)).reverse ++ trace) =
      List.replicate updates.length .slot ++ publicOf trace := by
  induction updates generalizing trace with
  | nil => rfl
  | cons u updates ih =>
    have one : publicOf ((slotEvents epoch u).reverse ++ trace) = .slot :: publicOf trace := by
      rw [slotEvents, storedEvents]
      split
      · split <;> rfl
      · rfl
    rw [List.flatMap_cons, List.reverse_append, List.append_assoc, ih, one, List.length_cons, List.replicate_succ',
      List.append_assoc]
    rfl

/-- A batch is one slot for each of its updates, masked or not. -/
theorem appendPreparedMaskedBatch_kept {updates : List (PreparedUpdate K V)}
    (run : h.appendPreparedMaskedBatch math updates = .ok h') :
    ∃ grews : List Bool, grews.length = updates.length ∧ (true ∈ grews → h.mode = some false) ∧
      Kept h (grews.map .slot) h' := by
  induction hn : updates.length using Nat.strong_induction_on generalizing h updates with
  | _ n ih =>
    by_cases none : updates = []
    · rw [none, appendPreparedMaskedBatch, dif_pos rfl, Except.ok.injEq] at run
      exact ⟨[], by rw [← hn, none]; rfl, by simp, run ▸ .refl h⟩
    obtain ⟨period, stash, g, inserted, evicted, run⟩ := appendPreparedMaskedBatch_cons none run
    have progress := h.chunkLen_pos period (List.length_pos_iff.mpr none)
    have within : h.chunkLen h.currentEvictInterval updates.length ≤ updates.length := Nat.min_le_left ..
    have early := fun i => @chunkLen_early _ _ _ _ _ h h.currentEvictInterval updates.length i period
    generalize h.chunkLen h.currentEvictInterval updates.length = count at *
    obtain ⟨grew, immediate, mode, low, counters, shown⟩ := evictIf_counters evicted
    obtain ⟨grews, length, later, kept⟩ := ih (updates.drop count).length (by
      rw [List.length_drop]
      omega) run rfl
    obtain ⟨first, rfl⟩ := Nat.exists_eq_succ_of_ne_zero progress.ne'
    have idle := @Counters.run_early A h.counters first fun i hi => early i (Nat.succ_lt_succ hi)
    have filled : publicOf ((List.flatMap (slotEvents h.epoch) (updates.take first.succ)).reverse ++ h.trace) =
        .slot :: (List.replicate first .slot ++ publicOf h.trace) := by
      rw [publicOf_slots, List.length_take_of_le within, List.replicate_succ, List.cons_append]
    have chunk : Kept h (List.replicate first (.slot false) ++ [.slot grew]) g := by
      refine ⟨⟨?_, ?_, low⟩, mode⟩
      · rw [counters, Counters.run_append, idle.1]
        rfl
      · refine (shown.trans (congrArg (_ ++ ·) filled)).trans ?_
        rw [Counters.shown_append, idle.1, idle.2, Counters.shown, Counters.shown, List.nil_append,
          List.append_assoc]
        rw [Counters.events_slot, List.append_assoc]
        rfl
    refine ⟨List.replicate first false ++ grew :: grews, ?_, ?_, ?_⟩
    · rw [List.length_drop] at length
      rw [List.length_append, List.length_replicate, List.length_cons, length, ← hn]
      omega
    · intro some
      rcases List.mem_append.mp some with some | some
      · exact absurd (List.eq_of_mem_replicate some) (by simp)
      · rcases List.mem_cons.mp some with same | some
        · exact immediate same.symm
        · exact chunk.mode ▸ later some
    · rw [List.map_append, List.map_replicate, List.map_cons, ← List.singleton_append, ← List.append_assoc]
      exact chunk.trans kept

omit [Add V] [Inhabited V] in
theorem configureAutoResize_moved {cfg : AutoResizeConfig} {deferChecks emits : Bool}
    (run : h.configureAutoResize math cfg deferChecks emits = .ok h') : Moved h [] h' := by
  obtain ⟨sampler, -, -, rfl⟩ := configureAutoResize_spec run
  exact .of_same rfl rfl

omit [Add V] [Inhabited V] in
theorem takeDeferredAutoResizeSignal_kept {signal : Option Nat}
    (run : h.takeDeferredAutoResizeSignal = .ok (signal, h')) : Kept h [] h' := by
  obtain ⟨auto, enabled, -, -, -, rfl⟩ := takeDeferredAutoResizeSignal_spec run
  refine .of_same rfl rfl ?_
  rw [mode, mode, enabled]
  rfl

omit [Add V] in
theorem handleDeferredResize_kept (run : h.handleDeferredResize math = .ok h') :
    ∃ moves, (moves = [] ∨ moves = [.grow]) ∧ Kept h moves h' := by
  obtain ⟨⟨signal, g⟩, taken, run⟩ := bind_ok run
  have first := takeDeferredAutoResizeSignal_kept taken
  cases signal with
  | some target => exact ⟨[.grow], .inr rfl, first.trans (applyDeferredAutoResizeGrow_kept run)⟩
  | none =>
    simp only [pure, Except.pure, Except.ok.injEq] at run
    exact ⟨[], .inl rfl, run ▸ first⟩

/-- Every operation is a sequence of moves. -/
theorem step_moved {op : TreeOp K V} {out : Option V} (run : h.step math op = .ok (out, h')) :
    ∃ moves, Moved h moves h' := by
  cases op with
  | append key val =>
    obtain ⟨g, hg, same⟩ := map_ok run
    obtain ⟨-, rfl⟩ := Prod.mk.inj same
    obtain ⟨grew, -, kept⟩ := append_kept hg
    exact ⟨_, kept.toMoved⟩
  | appendBatch updates =>
    obtain ⟨g, hg, same⟩ := map_ok run
    obtain ⟨-, rfl⟩ := Prod.mk.inj same
    obtain ⟨grews, -, -, kept⟩ := appendPreparedMaskedBatch_kept hg
    exact ⟨_, kept.toMoved⟩
  | readTotal key =>
    obtain ⟨⟨v, g⟩, hg, run⟩ := bind_ok run
    simp only [pure, Except.pure, Except.ok.injEq, Prod.mk.injEq] at run
    obtain ⟨-, rfl⟩ := run
    exact ⟨_, (readPreparedTotal_kept hg).toMoved⟩
  | readDummy draw =>
    obtain ⟨g, hg, same⟩ := map_ok run
    obtain ⟨-, rfl⟩ := Prod.mk.inj same
    exact ⟨_, (readDummy_kept hg).toMoved⟩
  | flush =>
    simp only [step, Except.ok.injEq, Prod.mk.injEq] at run
    exact ⟨[], run.2 ▸ (Kept.refl h).toMoved⟩
  | grow =>
    obtain ⟨g, hg, same⟩ := map_ok run
    obtain ⟨-, rfl⟩ := Prod.mk.inj same
    exact ⟨_, (grow_kept hg).toMoved⟩
  | enableAutoResize cfg =>
    obtain ⟨g, hg, same⟩ := map_ok run
    obtain ⟨-, rfl⟩ := Prod.mk.inj same
    exact ⟨[], configureAutoResize_moved hg⟩
  | enableDeferredAutoResize cfg emits =>
    obtain ⟨g, hg, same⟩ := map_ok run
    obtain ⟨-, rfl⟩ := Prod.mk.inj same
    exact ⟨[], configureAutoResize_moved hg⟩
  | takeDeferredSignal =>
    obtain ⟨⟨signal, g⟩, hg, run⟩ := bind_ok run
    simp only [pure, Except.pure, Except.ok.injEq, Prod.mk.injEq] at run
    obtain ⟨-, rfl⟩ := run
    exact ⟨[], (takeDeferredAutoResizeSignal_kept hg).toMoved⟩
  | applyDeferredGrow target =>
    obtain ⟨g, hg, same⟩ := map_ok run
    obtain ⟨-, rfl⟩ := Prod.mk.inj same
    exact ⟨_, (applyDeferredAutoResizeGrow_kept hg).toMoved⟩
  | handleDeferredResize =>
    obtain ⟨g, hg, same⟩ := map_ok run
    obtain ⟨-, rfl⟩ := Prod.mk.inj same
    obtain ⟨moves, -, kept⟩ := handleDeferredResize_kept hg
    exact ⟨moves, kept.toMoved⟩

/-- A run is the moves of its operations. -/
theorem run_moved {ops : List (TreeOp K V)} {outs : List (Option V)} (hrun : h.run math ops = .ok (outs, h')) :
    ∃ moves, Moved h moves h' := by
  induction ops generalizing h outs with
  | nil =>
    simp only [run, Except.ok.injEq, Prod.mk.injEq] at hrun
    exact ⟨[], hrun.2 ▸ (Kept.refl h).toMoved⟩
  | cons op ops ih =>
    obtain ⟨out, outs', g, hstep, htail, -⟩ := run_cons hrun
    obtain ⟨ms, first⟩ := step_moved hstep
    obtain ⟨ns, rest⟩ := ih htail
    exact ⟨ms ++ ns, first.trans rest⟩

end Moves

end ObliviousHistogram
end Roga
