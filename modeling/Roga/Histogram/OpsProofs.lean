import Roga.Histogram.Reshuffle

/-! What each operation of a tree does to its contents. -/
namespace Roga
open Ct Reals ObliviousStash
variable {Z K A S : Nat} {V : Type}

namespace ObliviousHistogram
variable {known : UInt64 × Vector UInt8 K → Prop} {h h' h₁ : ObliviousHistogram Z K A S V}
  {math : ResizeMath}

section Insert
variable {stash : ObliviousStash Z K S V} {news : List (OramBlock K V)}

/-- New blocks in the overflow region keep the invariant. -/
theorem Inv.add (inv : h.Inv known) (memory : h'.physicalMemory = h.physicalMemory)
    (height : h'.height = h.height) (size : h'.stash.pathSize = h.stash.pathSize)
    (length : h'.stash.blocks.length = h.stash.blocks.length)
    (front : h'.stash.blocks.take h.stash.pathSize = h.stash.blocks.take h.stash.pathSize)
    (added : (reals h'.stash.overflowSlots).Perm (reals news ++ reals h.stash.overflowSlots))
    (knows : ∀ b ∈ reals news, known b.identity) :
    h'.Inv known ∧ h'.contents.Perm (reals news ++ h.contents) := by
  have bucket : h'.bucket = h.bucket := by
    funext n
    rw [ObliviousHistogram.bucket, memory]
    rfl
  have contents : h'.contents.Perm (reals news ++ h.contents) := by
    rw [ObliviousHistogram.contents, ObliviousHistogram.contents, bucket, height]
    refine (List.Perm.append_left _ added).trans ?_
    rw [← List.append_assoc, ← List.append_assoc]
    exact List.perm_append_comm.append_right _
  have shape := inv.shape
  refine ⟨⟨⟨shape.bucket_pos, height ▸ shape.height_pos, height ▸ shape.height_le, ?_, ?_, ?_,
    memory ▸ shape.bucket_zero, ?_⟩, ?_, fun b hb => ?_, fun identified n => ?_⟩, contents⟩
  · rw [memory, height, shape.memory]
  · rw [size, height, shape.path]
  · rw [length, size, shape.slots]
  · rw [size, front]
    exact shape.path_region
  · rw [OnPath, bucket, height]
    exact inv.onPath
  · rcases List.mem_append.mp (contents.mem_iff.mp hb) with hb | hb
    · exact knows b hb
    · exact inv.inserted b hb
  · rw [bucket]
    exact inv.distinct identified n

theorem insert_step (inv : h.Inv known) {tag : UInt64} {epoch : UInt8} {value : V}
    {payload : Vector UInt8 K} (knows : tag ≠ 0 → known (tag, payload))
    (run : h.stash.insert tag epoch value payload = .ok stash) :
    ({ h with stash } : ObliviousHistogram Z K A S V).Inv known ∧
      ({ h with stash } : ObliviousHistogram Z K A S V).contents.Perm
        (reals [{ tag, epoch, value, payload }] ++ h.contents) := by
  obtain ⟨size, length, front, added⟩ := insert_spec tag epoch value payload
    (by rw [inv.shape.slots]; omega) run
  refine inv.add rfl rfl size length front added fun b hb => ?_
  obtain ⟨hb, hr⟩ := mem_reals.mp hb
  rw [List.mem_singleton] at hb
  subst hb
  exact knows (OramBlock.isReal_iff.mp hr)

theorem insertBatch_step [Inhabited V] (inv : h.Inv known) {updates : List (MaskedUpdate K V)}
    (knows : ∀ b ∈ reals (updates.map updateBlock), known b.identity)
    (run : h.stash.insertBatch updates = .ok stash) :
    ({ h with stash } : ObliviousHistogram Z K A S V).Inv known ∧
      ({ h with stash } : ObliviousHistogram Z K A S V).contents.Perm
        (reals (updates.map updateBlock) ++ h.contents) := by
  obtain ⟨size, length, front, added⟩ := insertBatch_spec (by rw [inv.shape.slots]; omega) run
  exact inv.add rfl rfl size length front (.trans (.of_eq added) List.perm_append_comm) knows

end Insert

end ObliviousHistogram

section Accepted
variable (math : ResizeMath)

/-- Both tails of an alpha are in the range that `upper_quantile` asserts. -/
def ResizeMath.Accepts (alpha : Float) : Prop :=
  math.inTailRange alpha = true ∧ math.inTailRange (math.attemptsTail alpha) = true

instance (alpha : Float) : Decidable (math.Accepts alpha) := inferInstanceAs (Decidable (_ ∧ _))

/-- The units of an epoch whose alpha is accepted. -/
def epochUnits (tCapacity l k : Nat) (alpha : Float) (a : Nat) (sampler : CtDiscreteLaplace)
    (rng : AutoResizeRng) : Int64 × AutoResizeRng :=
  let (thetaUnits, rng) := sampler.sample math rng
  (math.deterministicUnits tCapacity l k alpha a + thetaUnits - math.quantile sampler alpha -
    math.quantile sampler (math.attemptsTail alpha), rng)

/-- The estimator after a growth with an accepted alpha. -/
def AutoResizeState.regrown (Z A : Nat) (auto : AutoResizeState) (newHeight : Nat) : AutoResizeState :=
  let config := { auto.config with tCapacity := saturatingMul auto.config.tCapacity 2 }
  let lNew := leafCount newHeight
  let effectiveT := effectiveTCapacity Z config.tCapacity
  let k := dpInitialK math effectiveT lNew A
  let units := epochUnits math effectiveT lNew k config.alpha A auto.sampler auto.rng
  { auto with config, k, tHatUnits := units.1, rng := units.2, totalResizes := auto.totalResizes + 1 }

variable {math}

/-- Its two assertions are all that can stop the units. -/
theorem dpEpochUnits_eq (tCapacity l k : Nat) (alpha : Float) (a : Nat) (sampler : CtDiscreteLaplace) (rng : AutoResizeRng) :
    dpEpochUnits math tCapacity l k alpha a sampler rng =
      if math.Accepts alpha then .ok (epochUnits math tCapacity l k alpha a sampler rng)
      else .error (.assertion "tail probability must be finite and in (0, 0.5)") := by
  rw [dpEpochUnits, ResizeMath.upperQuantile, ResizeMath.upperQuantile]
  by_cases estimator : math.inTailRange alpha = true
  · by_cases attempts : math.inTailRange (math.attemptsTail alpha) = true
    · have accepts : math.Accepts alpha := ⟨estimator, attempts⟩
      rw [if_pos estimator, if_pos attempts, if_pos accepts]
      rfl
    · have rejects : ¬ math.Accepts alpha := fun accepts => attempts accepts.2
      rw [if_pos estimator, if_neg attempts, if_neg rejects]
      rfl
  · have rejects : ¬ math.Accepts alpha := fun accepts => estimator accepts.1
    rw [if_neg estimator, if_neg rejects]
    rfl

theorem AutoResizeState.onTreeGrown_eq (Z A : Nat) (auto : AutoResizeState) (newHeight : Nat) :
    auto.onTreeGrown math Z A newHeight = if math.Accepts auto.config.alpha then .ok (auto.regrown math Z A newHeight)
      else .error (.assertion "tail probability must be finite and in (0, 0.5)") := by
  rw [onTreeGrown, dpEpochUnits_eq]
  split <;> rfl

end Accepted

namespace ObliviousHistogram
variable {known : UInt64 × Vector UInt8 K → Prop} {h h' h₁ : ObliviousHistogram Z K A S V}
  {math : ResizeMath}

/-- The estimator's alpha, if there is one, is accepted. -/
def Accepted (math : ResizeMath) (h : ObliviousHistogram Z K A S V) : Prop :=
  ∀ auto, h.autoResize = some auto → math.Accepts auto.config.alpha

/-- The tree after the estimator has seen it grow. -/
def regrown (math : ResizeMath) (h : ObliviousHistogram Z K A S V) : ObliviousHistogram Z K A S V :=
  { h with autoResize := h.autoResize.map fun auto => auto.regrown math Z A h.height }

theorem onTreeGrown_of_accepted (accepted : h.Accepted math) : h.onTreeGrown math = .ok (h.regrown math) := by
  rw [onTreeGrown]
  split
  · rename_i auto enabled
    rw [AutoResizeState.onTreeGrown_eq, if_pos (accepted auto enabled), regrown, enabled]
    rfl
  · rename_i disabled
    have same : h.regrown math = h := by rw [regrown, disabled, Option.map_none, ← disabled]
    rw [same]

/-- A growth that goes through has an accepted alpha. -/
theorem onTreeGrown_spec (run : h.onTreeGrown math = .ok h') : h.Accepted math ∧ h' = h.regrown math := by
  have accepted : h.Accepted math := by
    intro auto enabled
    by_contra outside
    rw [onTreeGrown, enabled] at run
    obtain ⟨grown, seen, -⟩ := bind_ok run
    rw [AutoResizeState.onTreeGrown_eq, if_neg outside] at seen
    exact absurd seen (by simp)
  rw [onTreeGrown_of_accepted accepted, Except.ok.injEq] at run
  exact ⟨accepted, run.symm⟩

theorem Accepted.of_eq (accepted : h.Accepted math) (same : h'.autoResize = h.autoResize) : h'.Accepted math :=
  fun auto enabled => accepted auto (same.symm.trans enabled)

theorem Accepted.grow [Inhabited V] (accepted : h.Accepted math) (grown : h.growPhysicalStorage = .ok h') :
    h'.Accepted math := by
  rw [growPhysicalStorage] at grown
  split at grown
  · exact Except.ok.inj grown ▸ accepted
  · exact absurd grown (by simp)

/-- The tree with its estimator configured. -/
def configured (math : ResizeMath) (h : ObliviousHistogram Z K A S V) (cfg : AutoResizeConfig)
    (sampler : CtDiscreteLaplace) (deferChecks emitsGrowSignal : Bool) : ObliviousHistogram Z K A S V :=
  let l := leafCount h.height
  let effectiveT := effectiveTCapacity Z cfg.tCapacity
  let k := dpInitialK math effectiveT l A
  let units := epochUnits math effectiveT l k cfg.alpha A sampler { seed := cfg.seed, drawn := 0 }
  { h with autoResize := some {
    config := cfg, k, tHatUnits := units.1, evictionsSinceCheck := 0, cSum := 0, totalResizes := 0
    deferred := deferChecks, emitsGrowSignal, pendingGrow := none, sampler, rng := units.2 } }

theorem configureAutoResize_spec {cfg : AutoResizeConfig} {deferChecks emits : Bool}
    (run : h.configureAutoResize math cfg deferChecks emits = .ok h') : ∃ sampler,
      math.newSampler cfg.eps = .ok sampler ∧ math.Accepts cfg.alpha ∧ h' = h.configured math cfg sampler deferChecks emits := by
  obtain ⟨sampler, made, run⟩ := bind_ok run
  obtain ⟨units, drawn, run⟩ := bind_ok run
  rw [dpEpochUnits_eq] at drawn
  split at drawn
  · rename_i accepts
    obtain rfl := Except.ok.inj drawn
    exact ⟨sampler, made, accepts, (Except.ok.inj run).symm⟩
  · exact absurd drawn (by simp)

theorem configureAutoResize_of_accepts {cfg : AutoResizeConfig} {sampler : CtDiscreteLaplace}
    (made : math.newSampler cfg.eps = .ok sampler) (accepts : math.Accepts cfg.alpha) (deferChecks emits : Bool) :
    h.configureAutoResize math cfg deferChecks emits = .ok (h.configured math cfg sampler deferChecks emits) := by
  rw [configureAutoResize, made]
  change (dpEpochUnits math _ _ _ _ _ _ _ >>= _) = _
  rw [dpEpochUnits_eq, if_pos accepts]
  rfl

section Moves
variable [Add V] [Inhabited V]

theorem Reshuffle.refl (h : ObliviousHistogram Z K A S V) : Reshuffle h h := .fields rfl rfl rfl rfl (List.suffix_refl _)

omit [Add V] in
theorem applyAutoResizeGrow_spec {target : Nat} (run : h.applyAutoResizeGrow math target = .ok h') :
    ∃ g, h.growPhysicalStorage = .ok g ∧ g.Accepted math ∧ h' = (g.regrown math).logGrown := by
  obtain ⟨g, grown, run⟩ := bind_ok run
  obtain ⟨m, seen, run⟩ := bind_ok run
  obtain ⟨accepted, rfl⟩ := onTreeGrown_spec seen
  simp only [pure, Except.pure, Except.ok.injEq] at run
  exact ⟨g, grown, accepted, run.symm⟩

omit [Add V] in
theorem applyAutoResizeGrow_of_accepted {g : ObliviousHistogram Z K A S V} (grown : h.growPhysicalStorage = .ok g)
    (accepted : g.Accepted math) (target : Nat) : h.applyAutoResizeGrow math target = .ok (g.regrown math).logGrown := by
  rw [applyAutoResizeGrow, grown]
  change (g.onTreeGrown math >>= _) = _
  rw [onTreeGrown_of_accepted accepted]
  rfl

theorem applyAutoResizeGrow_reshuffle {target : Nat}
    (run : h.applyAutoResizeGrow math target = .ok h') : Reshuffle h h' := by
  obtain ⟨g, grown, -, rfl⟩ := applyAutoResizeGrow_spec run
  exact .trans (.grow grown) (.fields rfl rfl rfl rfl (List.suffix_cons _ _))

omit [Add V] [Inhabited V] in
/-- A signal is taken from a deferred tree that emits signals. -/
theorem takeDeferredAutoResizeSignal_spec {signal : Option Nat}
    (run : h.takeDeferredAutoResizeSignal = .ok (signal, h')) :
    ∃ auto, h.autoResize = some auto ∧ auto.deferred = true ∧ auto.emitsGrowSignal = true ∧
      signal = auto.pendingGrow ∧ h' = { h with autoResize := some { auto with pendingGrow := none } } := by
  rw [takeDeferredAutoResizeSignal] at run
  split at run
  · rename_i auto before
    split at run
    · rename_i role
      obtain ⟨deferred, emits⟩ := Bool.and_eq_true_iff.mp role
      simp only [Except.ok.injEq, Prod.mk.injEq] at run
      exact ⟨auto, before, deferred, emits, run.1.symm, run.2.symm⟩
    · simp at run
  · simp at run

omit [Add V] in
/-- A deferred growth first resets the counters. -/
theorem applyDeferredAutoResizeGrow_spec {target : Nat}
    (run : h.applyDeferredAutoResizeGrow math target = .ok h') :
    (h.autoResize.map AutoResizeState.deferred).getD false = true ∧
      { h with autoResize := h.autoResize.map AutoResizeState.resetCounters }.applyAutoResizeGrow math target =
        .ok h' := by
  rw [applyDeferredAutoResizeGrow] at run
  split at run
  · rename_i deferred
    exact ⟨deferred, run⟩
  · simp at run

theorem applyDeferredAutoResizeGrow_reshuffle {target : Nat}
    (run : h.applyDeferredAutoResizeGrow math target = .ok h') : Reshuffle h h' := by
  obtain ⟨-, grown⟩ := applyDeferredAutoResizeGrow_spec run
  exact .trans (m := { h with autoResize := h.autoResize.map AutoResizeState.resetCounters })
    (.fields rfl rfl rfl rfl (List.suffix_refl _)) (applyAutoResizeGrow_reshuffle grown)

omit [Add V] [Inhabited V] in
/-- A call of `evaluate_signal` resets the window and keeps the rest of the estimator. -/
theorem evaluateSignal_spec {auto next : AutoResizeState} {signal : Option Nat}
    (evaluated : auto.evaluateSignal math Z = (signal, next)) :
    next.evictionsSinceCheck = 0 ∧ next.cSum = 0 ∧ next.config = auto.config ∧ next.k = auto.k ∧
      next.deferred = auto.deferred ∧ next.emitsGrowSignal = auto.emitsGrowSignal ∧
      next.pendingGrow = auto.pendingGrow := by
  obtain ⟨-, rfl⟩ := Prod.mk.inj evaluated.symm
  exact ⟨rfl, rfl, rfl, rfl, rfl, rfl, rfl⟩

/-- What the check after an eviction can do. -/
inductive EpochChecked (math : ResizeMath) (h h' : ObliviousHistogram Z K A S V) : Prop
  | early (same : h' = h) (early : ∀ auto, h.autoResize = some auto → auto.shouldCheckEpoch = false) :
      EpochChecked math h h'
  | kept (auto : AutoResizeState) (before : h.autoResize = some auto) (due : auto.shouldCheckEpoch = true)
      (signal : Option Nat) (next : AutoResizeState) (evaluated : auto.evaluateSignal math Z = (signal, next))
      (quiet : auto.deferred = true ∨ signal = none)
      (same : h' = { h with autoResize := some { next with
        pendingGrow := if auto.deferred && auto.emitsGrowSignal then signal else auto.pendingGrow } }.log
          (.signal auto.cSum signal)) : EpochChecked math h h'
  | grown (auto : AutoResizeState) (before : h.autoResize = some auto) (due : auto.shouldCheckEpoch = true)
      (target : Nat) (next : AutoResizeState) (evaluated : auto.evaluateSignal math Z = (some target, next))
      (immediate : auto.deferred = false)
      (run : ({ h with autoResize := some next }.log (.signal auto.cSum (some target))).applyAutoResizeGrow
        math target = .ok h') : EpochChecked math h h'

omit [Add V] in
theorem checkAndMaybeResizePostEviction_spec (run : h.checkAndMaybeResizePostEviction math = .ok h') :
    EpochChecked math h h' := by
  rw [checkAndMaybeResizePostEviction] at run
  cases before : h.autoResize with
  | none =>
    rw [before, Except.ok.injEq] at run
    exact .early run.symm (by simp [before])
  | some auto =>
    rw [before] at run
    cases due : auto.shouldCheckEpoch with
    | false =>
      simp only [due, Bool.not_false, if_true, Except.ok.injEq] at run
      refine .early run.symm fun auto' before' => ?_
      rw [before, Option.some.injEq] at before'
      exact before' ▸ due
    | true =>
      simp only [due, Bool.not_true, Bool.false_eq_true, if_false] at run
      rcases evaluated : auto.evaluateSignal math Z with ⟨signal, next⟩
      have call : h.evaluateSignal math auto =
          (signal, { h with autoResize := some next }.log (.signal auto.cSum signal)) := by
        rw [ObliviousHistogram.evaluateSignal, evaluated]
      obtain ⟨-, -, -, -, -, -, pending⟩ := evaluateSignal_spec evaluated
      rw [checkAndMaybeResize, call] at run
      cases mode : auto.deferred with
      | true =>
        rw [mode, if_pos rfl, Except.ok.injEq] at run
        refine .kept auto before due signal next evaluated (.inl mode) (run.symm.trans ?_)
        rw [mode, Bool.true_and, ← pending]
        split <;> rfl
      | false =>
        rw [mode, if_neg Bool.false_ne_true] at run
        cases signal with
        | none =>
          rw [Except.ok.injEq] at run
          refine .kept auto before due none next evaluated (.inr rfl) (run.symm.trans ?_)
          rw [mode, ← pending]
          rfl
        | some target => exact .grown auto before due target next evaluated mode run

theorem checkAndMaybeResizePostEviction_reshuffle
    (run : h.checkAndMaybeResizePostEviction math = .ok h') : Reshuffle h h' := by
  cases checkAndMaybeResizePostEviction_spec run with
  | early same => exact same ▸ .refl h
  | kept _ _ _ _ _ _ _ same => exact same ▸ .fields rfl rfl rfl rfl (List.suffix_cons _ _)
  | grown auto _ _ target next _ _ run =>
    exact .trans (m := { h with autoResize := some next }.log (.signal auto.cSum (some target)))
      (.fields rfl rfl rfl rfl (List.suffix_cons _ _)) (applyAutoResizeGrow_reshuffle run)

theorem updatePeakOverflow_reshuffle (h : ObliviousHistogram Z K A S V) :
    Reshuffle h h.updatePeakOverflow := by
  rw [updatePeakOverflow]
  split
  · exact .fields rfl rfl rfl rfl (List.suffix_refl _)
  · exact .refl h

/-- The state in which an eviction writes its path back. -/
def evictPrepared (h : ObliviousHistogram Z K A S V) : ObliviousHistogram Z K A S V :=
  let evictLeaf := evictLeafAt h.height h.evictCtr
  let g := (({ h with evictCtr := h.evictCtr + 1 }.log (.evict evictLeaf)).readPath evictLeaf)
  let g := if g.evictCtr ≤ g.sweepEnd then g.log (.sibling (evictLeaf ^^^ 1)) else g
  (g.mergePath evictLeaf).accumulateResizeAccounting evictLeaf

structure Prepared (h g : ObliviousHistogram Z K A S V) : Prop where
  memory : g.physicalMemory = h.physicalMemory
  stash : g.stash = h.mergedStash (evictLeafAt h.height h.evictCtr)
  height : g.height = h.height
  prf : g.prf = h.prf
  epoch : g.epoch = h.epoch
  evictCtr : g.evictCtr = h.evictCtr + 1
  sweepEnd : g.sweepEnd = h.sweepEnd
  appendCtr : g.appendCtr = h.appendCtr
  autoResize : g.autoResize = h.autoResize.map fun auto => auto.recordEviction
    (g.stash.countMatchingBlocks h.height (evictLeafAt h.height h.evictCtr) h.epoch)
  trace : h.trace <:+ g.trace
  signals : signalsOf g.trace = signalsOf h.trace
  growths : growthsOf g.trace = growthsOf h.trace
  history : historyOf g.trace = (h.autoResize.map fun auto => Event.counted h.height
    (evictLeafAt h.height h.evictCtr) h.epoch auto.cSum (auto.cSum + g.stash.countMatchingBlocks h.height
      (evictLeafAt h.height h.evictCtr) h.epoch)).toList ++ historyOf h.trace

omit [Add V] [Inhabited V] in
/-- The resize accounting of a tree in which an eviction has merged its path. -/
theorem accumulateResizeAccounting_spec (h : ObliviousHistogram Z K A S V) (leaf : TreeIndex) :
    ∃ trace, h.accumulateResizeAccounting leaf = { h with
        autoResize := h.autoResize.map fun auto =>
          auto.recordEviction (h.stash.countMatchingBlocks h.height leaf h.epoch)
        trace } ∧
      h.trace <:+ trace ∧ signalsOf trace = signalsOf h.trace ∧ growthsOf trace = growthsOf h.trace ∧
      historyOf trace = (h.autoResize.map fun auto => Event.counted h.height leaf h.epoch auto.cSum
        (auto.cSum + h.stash.countMatchingBlocks h.height leaf h.epoch)).toList ++ historyOf h.trace := by
  rw [accumulateResizeAccounting]
  split
  · rename_i auto enabled
    rw [enabled]
    exact ⟨_, rfl, List.suffix_cons _ _, rfl, rfl, rfl⟩
  · rename_i disabled
    rw [disabled]
    refine ⟨h.trace, ?_, List.suffix_refl _, rfl, rfl, rfl⟩
    rw [Option.map_none, ← disabled]

theorem evictPrepared_spec (h : ObliviousHistogram Z K A S V) : Prepared h h.evictPrepared := by
  have logged : ∀ events : List Event, h.trace <:+ events ++ h.trace := fun events => List.suffix_append _ _
  rw [evictPrepared]
  split
  · obtain ⟨trace, counted, suffix, signals, growths, history⟩ := accumulateResizeAccounting_spec
      (((({ h with evictCtr := h.evictCtr + 1 }.log (.evict (evictLeafAt h.height h.evictCtr))).readPath
        (evictLeafAt h.height h.evictCtr)).log (.sibling (evictLeafAt h.height h.evictCtr ^^^ 1))).mergePath
        (evictLeafAt h.height h.evictCtr)) (evictLeafAt h.height h.evictCtr)
    rw [counted]
    exact ⟨rfl, rfl, rfl, rfl, rfl, rfl, rfl, rfl, rfl,
      (logged [.sibling _, .access _, .evict _]).trans suffix, signals, growths, history⟩
  · obtain ⟨trace, counted, suffix, signals, growths, history⟩ := accumulateResizeAccounting_spec
      ((({ h with evictCtr := h.evictCtr + 1 }.log (.evict (evictLeafAt h.height h.evictCtr))).readPath
        (evictLeafAt h.height h.evictCtr)).mergePath (evictLeafAt h.height h.evictCtr))
      (evictLeafAt h.height h.evictCtr)
    rw [counted]
    exact ⟨rfl, rfl, rfl, rfl, rfl, rfl, rfl, rfl, rfl, (logged [.access _, .evict _]).trans suffix, signals,
      growths, history⟩

/-- An eviction is a prepared path write followed by the resize check. -/
theorem evictAfterInsert_spec (run : h.evictAfterInsert math = .ok h') :
    ∃ g, h.evictPrepared.writePath (evictLeafAt h.height h.evictCtr) = .ok g ∧
      g.updatePeakOverflow.checkAndMaybeResizePostEviction math = .ok h' := by
  obtain ⟨g, written, run⟩ := bind_ok run
  exact ⟨g, written, run⟩

theorem evictAfterInsert_reshuffle (hh : h.height ≤ 31) (run : h.evictAfterInsert math = .ok h') :
    Reshuffle h h' := by
  obtain ⟨g, written, check⟩ := evictAfterInsert_spec run
  obtain ⟨low, high⟩ := evictLeafAt_bounds hh h.evictCtr
  have prep := evictPrepared_spec h
  exact .trans (.touch _ low high prep.memory prep.stash prep.height prep.prf prep.trace written)
    (.trans (updatePeakOverflow_reshuffle g) (checkAndMaybeResizePostEviction_reshuffle check))

theorem finishAppendAfterInsert_reshuffle (hh : h.height ≤ 31)
    (run : h.finishAppendAfterInsert math = .ok h') : Reshuffle h h' := by
  rw [finishAppendAfterInsert] at run
  refine .trans (m := { h with appendCtr := h.appendCtr + 1 }.log .slot)
    (.fields rfl rfl rfl rfl (List.suffix_cons _ _)) ?_
  split at run
  · exact evictAfterInsert_reshuffle (by exact hh) run
  · simp only [Except.ok.injEq] at run
    exact run ▸ .refl _

theorem readDummy_reshuffle {draw : Nat} (run : h.readDummy draw = .ok h') : Reshuffle h h' := by
  obtain ⟨g, written, run⟩ := bind_ok run
  obtain ⟨low, high⟩ := leaf_bounds (Nat.mod_lt draw (Nat.two_pow_pos h.height))
  simp only [pure, Except.pure, Except.ok.injEq] at run
  subst run
  exact .trans (.touch (m := (h.readPath _).mergePath _) _ low high rfl rfl rfl rfl
    (List.suffix_cons _ _) written)
    (updatePeakOverflow_reshuffle g)

/-- The migration loop of `grow` over leaves of the new height. -/
theorem migrate_reshuffle {leaves : List Nat} {height : Nat} (hh : h.height = height)
    (inside : ∀ i ∈ leaves, i < 2 ^ height)
    (run : leaves.foldlM (fun h i => ((h.readPath (leafCount height + i)).mergePath
      (leafCount height + i)).writePath (leafCount height + i)) h = .ok h') : Reshuffle h h' := by
  induction leaves generalizing h with
  | nil =>
    simp only [List.foldlM_nil, pure, Except.pure, Except.ok.injEq] at run
    exact run ▸ .refl h
  | cons i leaves ih =>
    rw [List.foldlM_cons] at run
    obtain ⟨g, step, run⟩ := bind_ok run
    have small := inside i (.head _)
    have kept := congrArg ObliviousHistogram.height (writePath_fields step).2
    rw [leafCount] at step
    have low : 2 ^ h.height ≤ 2 ^ height + i := by rw [hh]; omega
    have high : 2 ^ height + i < 2 ^ (h.height + 1) := by rw [hh, Nat.pow_succ]; omega
    exact .trans (.touch (m := (h.readPath _).mergePath _) _ low high rfl rfl rfl rfl
      (List.suffix_cons _ _) step)
      (ih (kept.trans hh) (fun j hj => inside j (.tail _ hj)) run)

theorem grow_of_accepted {g : ObliviousHistogram Z K A S V} (grown : h.growPhysicalStorage = .ok g)
    (accepted : g.Accepted math) : h.grow math =
      (List.range (leafCount g.height)).foldlM (fun h i => ((h.readPath (leafCount g.height + i)).mergePath
        (leafCount g.height + i)).writePath (leafCount g.height + i)) (g.regrown math).logGrown := by
  rw [grow, grown]
  change (g.onTreeGrown math >>= _) = _
  rw [onTreeGrown_of_accepted accepted]
  rfl

/-- A manual growth is the growth and then an access to every leaf. -/
theorem grow_spec (run : h.grow math = .ok h') : ∃ g, h.growPhysicalStorage = .ok g ∧ g.Accepted math ∧
    (List.range (leafCount g.height)).foldlM (fun h i => ((h.readPath (leafCount g.height + i)).mergePath
      (leafCount g.height + i)).writePath (leafCount g.height + i)) (g.regrown math).logGrown = .ok h' := by
  obtain ⟨g, grown, run⟩ := bind_ok run
  obtain ⟨m, seen, run⟩ := bind_ok run
  obtain ⟨accepted, rfl⟩ := onTreeGrown_spec seen
  exact ⟨g, grown, accepted, run⟩

theorem grow_reshuffle (run : h.grow math = .ok h') : Reshuffle h h' := by
  obtain ⟨g, grown, -, run⟩ := grow_spec run
  exact .trans (.grow grown) (.trans (m := (g.regrown math).logGrown)
    (.fields rfl rfl rfl rfl (List.suffix_cons _ _))
    (migrate_reshuffle rfl (fun i hi => List.mem_range.mp hi) run))

/-- An insertion, then whatever eviction it triggers. -/
theorem addPreparedInner_step (inv : h.Inv known) {tag : UInt64} {val : V} {payload : Vector UInt8 K}
    (knows : tag ≠ 0 → known (tag, payload)) (run : h.addPreparedInner math tag val payload = .ok h') :
    ∃ m : ObliviousHistogram Z K A S V, m.Inv known ∧ m.prf = h.prf ∧ h.trace <:+ m.trace ∧ m.contents.Perm
      (reals [{ tag, epoch := h.epoch, value := val, payload }] ++ h.contents) ∧ Reshuffle m h' := by
  obtain ⟨stash, inserted, run⟩ := bind_ok run
  obtain ⟨minv, contents⟩ := insert_step inv knows inserted
  exact ⟨({ h with stash } : ObliviousHistogram Z K A S V).logStored tag payload, minv.congr rfl rfl rfl, rfl,
    List.suffix_append _ _, contents, finishAppendAfterInsert_reshuffle minv.shape.height_le run⟩

/-- The slot of a prepared update in an epoch. -/
def preparedBlock (epoch : UInt8) (u : PreparedUpdate K V) : OramBlock K V :=
  updateBlock (u.1, epoch, u.2.1, u.2.2.1, u.2.2.2)

/-- One chunk of a batch: an insertion, then the eviction if it is due. -/
theorem appendPreparedMaskedBatch_cons {updates : List (PreparedUpdate K V)} (some : updates ≠ [])
    (run : h.appendPreparedMaskedBatch math updates = .ok h') :
    h.currentEvictInterval ≠ 0 ∧ ∃ stash g,
      h.stash.insertBatch ((updates.take (h.chunkLen h.currentEvictInterval updates.length)).map fun u =>
        (u.1, h.epoch, u.2.1, u.2.2.1, u.2.2.2)) = .ok stash ∧
      (let m : ObliviousHistogram Z K A S V :=
        { h with stash, appendCtr := h.appendCtr + h.chunkLen h.currentEvictInterval updates.length }.logSlots
          (updates.take (h.chunkLen h.currentEvictInterval updates.length))
      (if h.currentEvictInterval ∣ m.appendCtr then m.evictAfterInsert math else .ok m) = .ok g) ∧
      g.appendPreparedMaskedBatch math
        (updates.drop (h.chunkLen h.currentEvictInterval updates.length)) = .ok h' := by
  rw [appendPreparedMaskedBatch, dif_neg some] at run
  by_cases period : h.currentEvictInterval = 0
  · simp only [dif_pos period, reduceCtorEq] at run
  simp only [dif_neg period] at run
  obtain ⟨stash, inserted, run⟩ := bind_ok run
  refine ⟨period, stash, ?_⟩
  split at run
  · rename_i due
    obtain ⟨g, evicted, run⟩ := bind_ok run
    exact ⟨g, inserted, (if_pos due).trans evicted, run⟩
  · rename_i due
    obtain ⟨g, kept, run⟩ := bind_ok run
    exact ⟨g, inserted, (if_neg due).trans kept, run⟩

theorem evictIf_reshuffle {due : Prop} [Decidable due] (hh : h.height ≤ 31)
    (run : (if due then h.evictAfterInsert math else .ok h) = .ok h') : Reshuffle h h' := by
  split at run
  · exact evictAfterInsert_reshuffle hh run
  · simp only [Except.ok.injEq] at run
    exact run ▸ .refl h

/-- What a batch must know of its unmasked updates with a real tag. -/
def KnownUpdates (known : UInt64 × Vector UInt8 K → Prop) (updates : List (PreparedUpdate K V)) : Prop :=
  ∀ u ∈ updates, u.2.2.2 &&& 1 ≠ 0 → u.1 ≠ 0 → known (u.1, u.2.2.1)

omit [Add V] in
theorem preparedBlock_known {updates : List (PreparedUpdate K V)} (knows : KnownUpdates known updates)
    (epoch : UInt8) : ∀ b ∈ reals (updates.map (preparedBlock epoch)), known b.identity := by
  intro b hb
  obtain ⟨hb, hr⟩ := mem_reals.mp hb
  obtain ⟨u, hu, rfl⟩ := List.mem_map.mp hb
  rw [preparedBlock, updateBlock_eq] at hr ⊢
  by_cases on : u.2.2.2 &&& 1 != 0
  · rw [if_pos on] at hr ⊢
    exact knows u hu (by simpa using on) (OramBlock.isReal_iff.mp hr)
  · rw [if_neg on] at hr
    simp at hr

omit [Add V] in
/-- One chunk keeps the invariant and adds its blocks. -/
theorem batchChunk_step (inv : h.Inv known) {updates : List (PreparedUpdate K V)}
    (knows : KnownUpdates known updates) {stash : ObliviousStash Z K S V}
    (inserted : h.stash.insertBatch (updates.map fun u => (u.1, h.epoch, u.2.1, u.2.2.1, u.2.2.2)) =
      .ok stash) (count : Nat) :
    ({ h with stash, appendCtr := h.appendCtr + count }.logSlots updates :
      ObliviousHistogram Z K A S V).Inv known ∧
    ({ h with stash, appendCtr := h.appendCtr + count }.logSlots updates :
      ObliviousHistogram Z K A S V).contents.Perm
        (reals (updates.map (preparedBlock h.epoch)) ++ h.contents) := by
  have blocks : (updates.map fun u => (u.1, h.epoch, u.2.1, u.2.2.1, u.2.2.2)).map updateBlock =
      updates.map (preparedBlock h.epoch) := List.map_map
  obtain ⟨minv, contents⟩ := insertBatch_step inv
    (by rw [blocks]; exact preparedBlock_known knows h.epoch) inserted
  rw [blocks] at contents
  exact ⟨minv.congr rfl rfl rfl, contents⟩

theorem appendPreparedMaskedBatch_inv (inv : h.Inv known) {updates : List (PreparedUpdate K V)}
    (knows : KnownUpdates known updates) (run : h.appendPreparedMaskedBatch math updates = .ok h') :
    h'.Inv known ∧ h'.prf = h.prf ∧ h.trace <:+ h'.trace := by
  induction hn : updates.length using Nat.strong_induction_on generalizing h updates with
  | _ n ih =>
    by_cases some : updates = []
    · rw [appendPreparedMaskedBatch, dif_pos some, Except.ok.injEq] at run
      exact run ▸ ⟨inv, rfl, List.suffix_refl _⟩
    obtain ⟨period, stash, g, inserted, evicted, run⟩ := appendPreparedMaskedBatch_cons some run
    have progress := h.chunkLen_pos period (List.length_pos_iff.mpr some)
    have chunk := (batchChunk_step inv (fun u hu => knows u (List.mem_of_mem_take hu)) inserted
      (h.chunkLen h.currentEvictInterval updates.length)).1
    have moved := evictIf_reshuffle chunk.shape.height_le evicted
    have shorter : (updates.drop (h.chunkLen h.currentEvictInterval updates.length)).length < n := by
      have := List.length_pos_iff.mpr some
      rw [List.length_drop]
      omega
    obtain ⟨inv', prf', trace'⟩ := ih _ shorter (moved.inv chunk)
      (fun u hu => knows u (List.mem_of_mem_drop hu)) run rfl
    have logged : h.trace <:+ (h.logSlots (updates.take (h.chunkLen h.currentEvictInterval
      updates.length))).trace := List.suffix_append _ _
    exact ⟨inv', prf'.trans moved.prf, logged.trans (moved.trace.trans trace')⟩

/-- The state in which a read writes its path back. -/
def removedPath (h : ObliviousHistogram Z K A S V) (leaf : TreeIndex) (payload : Vector UInt8 K) :
    ObliviousHistogram Z K A S V :=
  { (h.readPath leaf).mergePath leaf with
    stash := ((h.mergedStash leaf).readAndRemove payload).2.2 }.log (.removed payload.toList)

/-- A read is one access of the path of its tag. -/
theorem readPreparedTotal_spec {tag : UInt64} {payload : Vector UInt8 K} {v : V}
    (run : h.readPreparedTotal tag payload = .ok (v, h')) :
    v = ((h.mergedStash (toLeaf tag h.height)).readAndRemove payload).1 ∧
      ∃ g, (h.removedPath (toLeaf tag h.height) payload).writePath (toLeaf tag h.height) = .ok g ∧
        h' = g.updatePeakOverflow := by
  obtain ⟨g, written, run⟩ := bind_ok run
  simp only [pure, Except.pure, Except.ok.injEq, Prod.mk.injEq] at run
  exact ⟨run.1.symm, g, written, run.2.symm⟩

omit [Add V] [Inhabited V] in
theorem updatePeakOverflow_trace (h : ObliviousHistogram Z K A S V) : h.updatePeakOverflow.trace = h.trace := by
  rw [updatePeakOverflow]
  split <;> rfl

theorem readPreparedTotal_trace {tag : UInt64} {payload : Vector UInt8 K} {v : V}
    (run : h.readPreparedTotal tag payload = .ok (v, h')) : h.trace <:+ h'.trace := by
  obtain ⟨-, g, written, rfl⟩ := readPreparedTotal_spec run
  obtain ⟨-, fields⟩ := writePath_fields written
  rw [updatePeakOverflow_trace, fields]
  exact List.suffix_append [Event.removed _, .access _] _

theorem readPreparedTotal_step (inv : h.Inv known) {tag : UInt64} {payload : Vector UInt8 K} {v : V}
    (run : h.readPreparedTotal tag payload = .ok (v, h')) :
    h'.Inv known ∧ h'.prf = h.prf ∧ h'.height = h.height ∧
      v = ((h.mergedStash (toLeaf tag h.height)).readAndRemove payload).1 ∧
      h'.contents.Perm (h.rest (toLeaf tag h.height) ++
        (reals (h.mergedStash (toLeaf tag h.height)).blocks).filter fun b => b.payload ≠ payload) := by
  obtain ⟨value, g, written, rfl⟩ := readPreparedTotal_spec run
  obtain ⟨low, high⟩ := toLeaf_bounds tag inv.shape.height_le
  obtain ⟨ginv, acc⟩ := inv.touch_remove low high
    (show (h.removedPath (toLeaf tag h.height) payload).physicalMemory = h.physicalMemory from rfl) rfl rfl
    written
  have moved := updatePeakOverflow_reshuffle g
  obtain ⟨-, fields⟩ := writePath_fields written
  have prf : g.prf = h.prf := by
    rw [fields]
    rfl
  refine ⟨moved.inv ginv, moved.prf.trans prf, ?_, value, ?_⟩
  · rw [← acc.height, updatePeakOverflow]
    split <;> rfl
  · have same : g.updatePeakOverflow.contents = g.contents := by
      rw [updatePeakOverflow]
      split <;> rfl
    rw [same]
    exact acc.contents

end Moves

section Mass
variable {M : Type} [Add V] [AddCommSemigroup M] {f : V →ₙ+ M} [Inhabited V]

omit [Inhabited V] in
theorem mass_filter_ne (p q : Vector UInt8 K) (bs : List (OramBlock K V)) :
    mass f p (bs.filter fun b => b.payload ≠ q) = if p = q then 0 else mass f p bs := by
  induction bs with
  | nil => simp
  | cons b bs ih =>
    rw [List.filter_cons]
    by_cases hb : b.payload = q
    · rw [if_neg (by simpa using hb), ih, mass_cons]
      split
      · rfl
      · rename_i other
        rw [weight_other (fun h => other (h.symm.trans hb)), zero_add]
    · rw [if_pos (by simpa using hb), mass_cons, mass_cons, ih]
      split
      · rename_i same
        rw [weight_other (fun h => hb (h.trans same)), add_zero]
      · rfl

omit [Inhabited V] in
/-- No block of a payload lies off the path when all its known tags share the leaf. -/
theorem mass_rest (inv : h.Inv known) {leaf : TreeIndex} {p : Vector UInt8 K}
    (covers : ∀ t, known (t, p) → toLeaf t h.height = leaf) : mass f p (h.rest leaf) = 0 := by
  refine mass_eq_zero.mpr fun b hb hr hp => ?_
  obtain ⟨n, hn, hb⟩ := List.mem_flatMap.mp hb
  obtain ⟨hn, off⟩ := List.mem_filter.mp hn
  have hn := List.mem_range.mp hn
  have off : n ∉ pathNodes leaf h.height := by simpa using off
  rcases Nat.eq_zero_or_pos n with rfl | pos
  · exact absurd hr (by simp [inv.shape.bucket_zero b (mem_reals.mp hb).1])
  · have leafOf := covers b.tag (hp ▸ inv.inserted b (mem_contents_of_bucket inv.shape hb))
    have here := inv.onPath n pos hn b hb
    have depth : n.log2 ≤ h.height := by
      have := (Nat.log2_lt (by omega)).mpr hn
      omega
    refine off (mem_pathNodes.mpr ⟨n.log2, depth, ?_⟩)
    rw [ctNodeOnPath, ← leafOf, toLeaf_shiftRight b.tag depth inv.shape.height_le, here]

/-- A read of a payload whose copies all lie on its path clears its mass. -/
theorem readPreparedTotal_mass (inv : h.Inv known) {tag : UInt64} {payload : Vector UInt8 K} {v : V}
    (none : mass f payload (h.rest (toLeaf tag h.height)) = 0)
    (run : h.readPreparedTotal tag payload = .ok (v, h')) (p : Vector UInt8 K) :
    mass f p h'.contents = if p = payload then 0 else mass f p h.contents := by
  obtain ⟨-, -, -, -, contents⟩ := readPreparedTotal_step inv run
  obtain ⟨low, high⟩ := toLeaf_bounds tag inv.shape.height_le
  rw [mass_perm p contents, mass_append, mass_filter_ne, mass_reals, mergedStash_mass low high inv.shape,
    mass_perm p (contents_perm low high rfl), mass_append]
  split
  · rename_i same
    rw [same, none, add_zero]
  · rfl

end Mass

/-- It returns that mass. -/
theorem readPreparedTotal_value [AddCommSemigroup V] [Inhabited V] (inv : h.Inv known)
    (identified : Identified known) {tag : UInt64} {payload : Vector UInt8 K} {v : V}
    (none : mass (AddHom.id V) payload (h.rest (toLeaf tag h.height)) = 0)
    (run : h.readPreparedTotal tag payload = .ok (v, h')) :
    v = readValue (mass (AddHom.id V) payload h.contents).values := by
  obtain ⟨-, -, -, value, -⟩ := readPreparedTotal_step inv run
  obtain ⟨low, high⟩ := toLeaf_bounds tag inv.shape.height_le
  have nodup := mergedStash_nodup low high inv identified
  rw [mass_perm payload (contents_perm low high rfl), mass_append, none, zero_add,
    ← mergedStash_mass low high inv.shape, value]
  by_cases found : ∃ b ∈ reals (h.mergedStash (toLeaf tag h.height)).blocks, b.payload = payload
  · obtain ⟨b, hb, hp⟩ := found
    obtain ⟨hm, hr⟩ := mem_reals.mp hb
    rw [mass_of_nodup nodup hm hr hp, weight_real hr hp]
    exact readAndRemoveLoop_found nodup hb hp _ _
  · have absent : ∀ b ∈ reals (h.mergedStash (toLeaf tag h.height)).blocks, b.payload ≠ payload :=
      fun b hb hp => found ⟨b, hb, hp⟩
    rw [mass_eq_zero.mpr fun b hb hr => absent b (mem_reals.mpr ⟨hb, hr⟩)]
    exact readAndRemoveLoop_none absent _ _

end ObliviousHistogram
end Roga
