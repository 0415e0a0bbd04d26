import Roga.Histogram.Control

/-! Which growths start a fresh estimator window: those that a check or a
deferred signal asks for, and a manual one only when the window is fresh before. -/
namespace Roga
open ObliviousHistogram
variable {Z K A S : Nat} {V : Type} {math : ResizeMath}

/-- Nothing counted and nothing pending. -/
def freshWindow : Nat × Nat × Option Nat := (0, 0, none)

theorem mem_growthsOf {trace : List Event} {window : Option (Nat × Nat × Option Nat)} :
    window ∈ growthsOf trace ↔ Event.grown window ∈ trace := by
  rw [growthsOf, List.mem_filterMap]
  constructor
  · rintro ⟨e, there, same⟩
    cases e with
    | grown w => exact (Option.some.inj same) ▸ there
    | _ => simp at same
  · exact fun there => ⟨_, there, rfl⟩

namespace ObliviousHistogram
variable {h h' g : ObliviousHistogram Z K A S V}

/-- Only a deferred estimator holds a signal back. -/
def NoSignal (h : ObliviousHistogram Z K A S V) : Prop :=
  ∀ auto, h.autoResize = some auto → auto.deferred = false → auto.pendingGrow = none

/-- The window is fresh, if there is an estimator. -/
def FreshWindow (h : ObliviousHistogram Z K A S V) : Prop :=
  ∀ auto, h.autoResize = some auto → auto.window = freshWindow

/-- The growths between two states all open fresh windows. -/
structure OpensFresh (h h' : ObliviousHistogram Z K A S V) : Prop where
  noSignal : NoSignal h'
  growths : ∃ new, growthsOf h'.trace = new ++ growthsOf h.trace ∧
    ∀ window, some window ∈ new → window = freshWindow

theorem OpensFresh.trans (first : OpensFresh h g) (second : OpensFresh g h') : OpensFresh h h' := by
  obtain ⟨new, grown, fresh⟩ := first.growths
  obtain ⟨new', grown', fresh'⟩ := second.growths
  refine ⟨second.noSignal, new' ++ new, ?_, fun window hw => ?_⟩
  · rw [grown', grown, List.append_assoc]
  · exact (List.mem_append.mp hw).elim (fresh' window) (fresh window)

/-- No growth, and no signal that was not there. -/
theorem OpensFresh.quiet (noSignal : NoSignal h') (quiet : growthsOf h'.trace = growthsOf h.trace) :
    OpensFresh h h' := ⟨noSignal, [], quiet, by simp⟩

theorem NoSignal.of_eq (none : NoSignal h) (same : h'.autoResize = h.autoResize) : NoSignal h' :=
  fun auto hauto mode => none auto (same ▸ hauto) mode

section Steps
variable [Add V] [Inhabited V]

/-- An eviction grows only right after a check has reset the window. -/
theorem OpensFresh.evict (none : NoSignal h) (run : h.evictAfterInsert math = .ok h') : OpensFresh h h' := by
  cases evictAfterInsert_control run with
  | off ticked before after =>
    refine .quiet (fun auto hauto => ?_) ticked.growths
    rw [after] at hauto
    exact absurd hauto (by simp)
  | counted ticked auto before early after =>
    refine .quiet (fun auto' hauto mode => ?_) ticked.growths
    rw [after, Option.some.injEq] at hauto
    subst hauto
    exact none auto before mode
  | checked ticked auto before due signal next evaluated kept after =>
    obtain ⟨-, -, -, -, deferred, -⟩ := evaluateSignal_spec evaluated
    refine .quiet (fun auto' hauto mode => ?_) ticked.growths
    rw [after, Option.some.injEq] at hauto
    subst hauto
    have immediate : auto.deferred = false := deferred.symm.trans mode
    change (if auto.deferred && auto.emitsGrowSignal then signal else auto.pendingGrow) = Option.none
    rw [immediate, Bool.false_and, if_neg Bool.false_ne_true]
    exact none auto before immediate
  | grown auto before due target next evaluated immediate m ticked middle grown =>
    obtain ⟨evictions, cSum, -, -, deferred, -, pending⟩ := evaluateSignal_spec evaluated
    have quiet : next.pendingGrow = Option.none := pending.trans (none auto before immediate)
    refine ⟨fun auto' hauto _ => ?_, [some next.window], ?_, fun window hw => ?_⟩
    · rw [grown.autoResize, middle, Option.map_some, Option.some.injEq] at hauto
      subst hauto
      exact quiet
    · rw [grown.growths, middle, ticked.growths]
      rfl
    · rw [List.mem_singleton, Option.some.injEq] at hw
      rw [hw, AutoResizeState.window, evictions, cSum, quiet]
      rfl

theorem OpensFresh.evictIf {due : Prop} [Decidable due] (none : NoSignal h)
    (run : (if due then h.evictAfterInsert math else .ok h) = .ok h') : OpensFresh h h' := by
  split at run
  · exact .evict none run
  · simp only [Except.ok.injEq] at run
    exact run ▸ .quiet none rfl

omit [Add V] [Inhabited V] in
theorem OpensFresh.fill {known : UInt64 × Vector UInt8 K → Prop} {count : Nat} {blocks : List (OramBlock K V)}
    (none : NoSignal h) (filled : Filled known h count blocks g) : OpensFresh h g :=
  .quiet (none.of_eq filled.autoResize) filled.growths

theorem OpensFresh.batch {known : UInt64 × Vector UInt8 K → Prop} {updates : List (PreparedUpdate K V)}
    (inv : h.Inv known) (knows : KnownUpdates known updates) (none : NoSignal h)
    (run : h.appendPreparedMaskedBatch math updates = .ok h') : OpensFresh h h' := by
  induction hn : updates.length using Nat.strong_induction_on generalizing h updates with
  | _ n ih =>
    by_cases some : updates = []
    · rw [appendPreparedMaskedBatch, dif_pos some, Except.ok.injEq] at run
      exact run ▸ .quiet none rfl
    obtain ⟨progress, m, e, filled, evicted, run⟩ := batch_filled inv knows some run
    have first := (OpensFresh.fill none filled).trans (.evictIf (none.of_eq filled.autoResize) evicted)
    have moved := evictIf_reshuffle filled.inv.shape.height_le evicted
    refine first.trans (ih _ ?_ (moved.inv filled.inv) (fun u hu => knows u (List.mem_of_mem_drop hu))
      first.noSignal run rfl)
    have := List.length_pos_iff.mpr some
    rw [List.length_drop]
    omega

omit [Add V] in
/-- A deferred growth resets the window first. -/
theorem OpensFresh.deferredGrow {target : Nat}
    (run : h.applyDeferredAutoResizeGrow math target = .ok h') : OpensFresh h h' := by
  have grown := applyDeferredAutoResizeGrow_grown run
  refine ⟨fun auto hauto _ => ?_, [_], grown.growths, fun window hw => ?_⟩
  · rw [grown.autoResize] at hauto
    cases before : h.autoResize with
    | none =>
      rw [before] at hauto
      exact absurd hauto (by simp)
    | some auto' =>
      rw [before] at hauto
      simp only [Option.map_some, Option.some.injEq] at hauto
      exact hauto ▸ rfl
  · cases before : h.autoResize with
    | none => simp [before] at hw
    | some auto' =>
      rw [before] at hw
      simp only [Option.map_some, List.mem_singleton, Option.some.injEq] at hw
      exact hw

omit [Add V] [Inhabited V] in
theorem OpensFresh.configure {cfg : AutoResizeConfig} {deferChecks emits : Bool}
    (run : h.configureAutoResize math cfg deferChecks emits = .ok h') : OpensFresh h h' := by
  obtain ⟨sampler, -, -, rfl⟩ := configureAutoResize_spec run
  refine .quiet (fun auto hauto _ => ?_) rfl
  obtain rfl := Option.some.inj hauto
  rfl

omit [Add V] [Inhabited V] in
theorem OpensFresh.take {signal : Option Nat}
    (run : h.takeDeferredAutoResizeSignal = .ok (signal, h')) : OpensFresh h h' := by
  obtain ⟨auto, -, -, -, -, rfl⟩ := takeDeferredAutoResizeSignal_spec run
  refine .quiet (fun auto' hauto _ => ?_) rfl
  rw [Option.some.injEq] at hauto
  exact hauto ▸ rfl

/-- Every operation but a manual growth opens fresh windows only. -/
theorem OpensFresh.step (inv : h.Inv fun _ => True) (none : NoSignal h) {op : TreeOp K V} {out : Option V}
    (automatic : op ≠ .grow) (run : h.step math op = .ok (out, h')) : OpensFresh h h' := by
  cases op with
  | append key val =>
    obtain ⟨g, hg, same⟩ := map_ok run
    obtain ⟨-, rfl⟩ := Prod.mk.inj same
    obtain ⟨m, filled, evicted⟩ := addPreparedInner_filled inv (fun _ => trivial) hg
    exact (OpensFresh.fill none filled).trans (.evictIf (none.of_eq filled.autoResize) evicted)
  | appendBatch updates =>
    obtain ⟨g, hg, same⟩ := map_ok run
    obtain ⟨-, rfl⟩ := Prod.mk.inj same
    exact .batch inv (fun _ _ _ _ => trivial) none hg
  | readTotal key =>
    obtain ⟨⟨v, g⟩, hg, run⟩ := bind_ok run
    simp only [pure, Except.pure, Except.ok.injEq, Prod.mk.injEq] at run
    obtain ⟨-, rfl⟩ := run
    have still := readPreparedTotal_still hg
    exact .quiet (none.of_eq still.autoResize) still.growths
  | readDummy draw =>
    obtain ⟨g, hg, same⟩ := map_ok run
    obtain ⟨-, rfl⟩ := Prod.mk.inj same
    have still := readDummy_still hg
    exact .quiet (none.of_eq still.autoResize) still.growths
  | flush =>
    simp only [ObliviousHistogram.step, Except.ok.injEq, Prod.mk.injEq] at run
    exact run.2 ▸ .quiet none rfl
  | grow => exact absurd rfl automatic
  | enableAutoResize cfg =>
    obtain ⟨g, hg, same⟩ := map_ok run
    obtain ⟨-, rfl⟩ := Prod.mk.inj same
    exact .configure hg
  | enableDeferredAutoResize cfg emits =>
    obtain ⟨g, hg, same⟩ := map_ok run
    obtain ⟨-, rfl⟩ := Prod.mk.inj same
    exact .configure hg
  | takeDeferredSignal =>
    obtain ⟨⟨signal, g⟩, hg, run⟩ := bind_ok run
    simp only [pure, Except.pure, Except.ok.injEq, Prod.mk.injEq] at run
    obtain ⟨-, rfl⟩ := run
    exact .take hg
  | applyDeferredGrow target =>
    obtain ⟨g, hg, same⟩ := map_ok run
    obtain ⟨-, rfl⟩ := Prod.mk.inj same
    exact .deferredGrow hg
  | handleDeferredResize =>
    obtain ⟨g, hg, same⟩ := map_ok run
    obtain ⟨-, rfl⟩ := Prod.mk.inj same
    obtain ⟨⟨signal, m⟩, taken, applied⟩ := bind_ok hg
    have first := OpensFresh.take taken
    cases signal with
    | some target => exact first.trans (.deferredGrow applied)
    | none =>
      simp only [pure, Except.pure, Except.ok.injEq] at applied
      exact applied ▸ first

/-- A manual growth goes on with the window it finds. -/
theorem growths_grow (run : h.grow math = .ok h') :
    growthsOf h'.trace = h.autoResize.map AutoResizeState.window :: growthsOf h.trace := (grow_grown run).growths

theorem NoSignal.grow (none : NoSignal h) (run : h.grow math = .ok h') : NoSignal h' := by
  intro auto hauto mode
  rw [(grow_grown run).autoResize] at hauto
  obtain ⟨before, hbefore, rfl⟩ := Option.map_eq_some_iff.mp hauto
  exact none before hbefore mode

/-- Each manual growth of a run finds a fresh window. -/
def GrowsFresh (math : ResizeMath) (h : ObliviousHistogram Z K A S V) (ops : List (TreeOp K V)) : Prop :=
  ∀ before after, ops = before ++ .grow :: after → ∀ outs g, h.run math before = .ok (outs, g) → FreshWindow g

theorem growsFresh_cons {op : TreeOp K V} {ops : List (TreeOp K V)} {out : Option V}
    (step : h.step math op = .ok (out, g)) :
    GrowsFresh math h (op :: ops) ↔ (op = .grow → FreshWindow h) ∧ GrowsFresh math g ops := by
  constructor
  · intro all
    refine ⟨fun manual => all [] ops (by rw [manual]; rfl) [] h rfl, fun before after split outs m reached => ?_⟩
    refine all (op :: before) after (by rw [split]; rfl) (out :: outs) m ?_
    rw [ObliviousHistogram.run, step]
    change Except.bind (g.run math before) _ = _
    rw [reached]
    rfl
  · rintro ⟨first, later⟩ before after split outs m reached
    cases before with
    | nil =>
      simp only [ObliviousHistogram.run, Except.ok.injEq, Prod.mk.injEq] at reached
      exact reached.2 ▸ first (List.cons.inj split).1
    | cons op' before =>
      obtain ⟨rfl, tail⟩ := List.cons.inj split
      obtain ⟨out', outs', g', step', reached, -⟩ := run_cons reached
      rw [step, Except.ok.injEq, Prod.mk.injEq] at step'
      exact later before after tail outs' m (step'.2 ▸ reached)

theorem step_windows (inv : h.Inv fun _ => True) (none : NoSignal h) {op : TreeOp K V} {out : Option V}
    (run : h.step math op = .ok (out, g)) : NoSignal g ∧
      ∃ new, growthsOf g.trace = new ++ growthsOf h.trace ∧
        ((∀ window, some window ∈ new → window = freshWindow) ↔ (op = .grow → FreshWindow h)) := by
  by_cases manual : op = .grow
  · subst manual
    obtain ⟨m, grown, same⟩ := map_ok run
    obtain ⟨-, rfl⟩ := Prod.mk.inj same
    refine ⟨none.grow grown, [_], growths_grow grown, ?_, ?_⟩
    · intro all _ auto hauto
      exact all _ (by rw [hauto]; exact .head _)
    · intro fresh window hw
      obtain ⟨auto, hauto, rfl⟩ := Option.map_eq_some_iff.mp (List.mem_singleton.mp hw).symm
      exact fresh rfl auto hauto
  · obtain ⟨noSignal, new, grown, fresh⟩ := OpensFresh.step inv none manual run
    exact ⟨noSignal, new, grown, fun _ here => absurd here manual, fun _ => fresh⟩

/-- The growths of a run open fresh windows exactly when each manual growth finds one. -/
theorem run_windows {ops : List (TreeOp K V)} {outs : List (Option V)} (inv : h.Inv fun _ => True)
    (none : NoSignal h) (run : h.run math ops = .ok (outs, h')) :
    ∃ new, growthsOf h'.trace = new ++ growthsOf h.trace ∧
      ((∀ window, some window ∈ new → window = freshWindow) ↔ GrowsFresh math h ops) := by
  induction ops generalizing h outs with
  | nil =>
    simp only [ObliviousHistogram.run, Except.ok.injEq, Prod.mk.injEq] at run
    exact ⟨[], run.2 ▸ rfl, by simp [GrowsFresh]⟩
  | cons op ops ih =>
    obtain ⟨out, outs', g, hstep, htail, -⟩ := run_cons run
    obtain ⟨gnone, new, grown, fresh⟩ := step_windows inv none hstep
    obtain ⟨new', grown', fresh'⟩ := ih (step_inv inv (fun _ _ => trivial) hstep).1 gnone htail
    refine ⟨new' ++ new, by rw [grown', grown, List.append_assoc], ?_⟩
    rw [growsFresh_cons hstep, ← fresh, ← fresh']
    constructor
    · intro all
      exact ⟨fun window hw => all window (List.mem_append_right _ hw),
        fun window hw => all window (List.mem_append_left _ hw)⟩
    · rintro ⟨first, later⟩ window hw
      exact (List.mem_append.mp hw).elim (later window) (first window)

end Steps
end ObliviousHistogram

/-- In a run of a new tree every growth starts a fresh window exactly when each
manual growth is made at one. -/
theorem growths_fresh_iff [Add V] [Inhabited V] {cap : Nat} {prf : Aes128} {ops : List (TreeOp K V)}
    {outs : List (Option V)} {h : ObliviousHistogram Z K A S V} (run : runNew math cap prf ops = .ok (outs, h)) :
    (∀ window, Event.grown (some window) ∈ h.trace → window = freshWindow) ↔
      ∀ before after, ops = before ++ .grow :: after → ∀ outs' (g : ObliviousHistogram Z K A S V),
        runNew math cap prf before = .ok (outs', g) → g.FreshWindow := by
  obtain ⟨h₀, start, run⟩ := bind_ok run
  obtain ⟨inv, -, -, trace, auto⟩ := new_spec start
  obtain ⟨new, grown, fresh⟩ := run_windows inv (fun auto' hauto => by simp [auto] at hauto) run
  rw [trace, show growthsOf [] = [] from rfl, List.append_nil] at grown
  have prefixes : ∀ (before : List (TreeOp K V)), runNew math cap prf before = h₀.run math before := fun before => by
    rw [runNew, start]
    rfl
  simp only [← mem_growthsOf, grown, fresh, GrowsFresh, prefixes]

/-- Formulas with a window of two evictions. -/
def ResizeMath.pairs : ResizeMath := { ResizeMath.constant with rawK := fun _ _ _ => 2 }

/-- One eviction is counted, then the tree grows by hand. -/
def halfWindow : List (TreeOp 1 Nat) :=
  [.enableAutoResize ⟨1, 1, 0.01, 0⟩, .append [1] 5, .grow]

theorem growths_fresh_iff_deferred :
    let ops : List (TreeOp 1 Nat) := [.enableDeferredAutoResize ⟨1, 1, 0.01, 0⟩ true, .append [1] 5, .applyDeferredGrow 0]
    ∃ (outs : List (Option Nat)) (h : ObliviousHistogram 1 1 1 2 Nat),
      runNew .pairs 2 id ops = .ok (outs, h) ∧
        ∀ window, Event.grown (some window) ∈ h.trace → window = freshWindow := by
  intro ops
  have run : (runNew .pairs 2 id ops :
    Except Panic (List (Option Nat) × ObliviousHistogram 1 1 1 2 Nat)).toBool = true := by decide +kernel
  obtain ⟨⟨outs, h⟩, run⟩ := exists_of_toBool run
  refine ⟨outs, h, run, (growths_fresh_iff run).mpr fun before after split => ?_⟩
  have manual : TreeOp.grow ∈ ops := split ▸ List.mem_append_right _ (.head _)
  simp [ops] at manual

/-- A manual growth in the middle of a window goes on counting. -/
theorem grow_keeps_window : ∃ (outs : List (Option Nat)) (h : ObliviousHistogram 1 1 1 2 Nat),
    runNew .pairs 2 id halfWindow = .ok (outs, h) ∧
      ∃ window, Event.grown (some window) ∈ h.trace ∧ window ≠ freshWindow := by
  have run : ((runNew .pairs 2 id halfWindow : Except Panic (List (Option Nat) ×
      ObliviousHistogram 1 1 1 2 Nat)).toOption.map fun r => growthsOf r.2.trace) =
        some [some (1, 1, none)] := by decide +kernel
  cases ran : (runNew .pairs 2 id halfWindow : Except Panic (List (Option Nat) ×
      ObliviousHistogram 1 1 1 2 Nat)) with
  | error e => simp [ran, Except.toOption] at run
  | ok r =>
    rw [ran] at run
    refine ⟨r.1, r.2, rfl, (1, 1, none), mem_growthsOf.mp ?_, by simp [freshWindow]⟩
    have growths : growthsOf r.2.trace = [some (1, 1, none)] := Option.some.inj run
    exact growths ▸ .head _

end Roga
