import Roga.Histogram.Sampler
import Roga.Histogram.Sensitivity
import Roga.Histogram.Transcript

/-! The resize checks of a run are noisy comparisons: draw number `i` of the estimator
reads block `i` of the word stream, and each check and each growth is one draw. -/
namespace Roga
open Ct SparseVector ObliviousHistogram
variable {Z K A S : Nat} {V : Type}

/-- The formulas with another word stream. -/
def ResizeMath.withWords (math : ResizeMath) (words : Nat → UInt64) : ResizeMath :=
  { math with word := fun _ => words }

/-- The trials of `geometric_with` that go on. -/
def CtDiscreteLaplace.goesOn (sampler : CtDiscreteLaplace) (word : UInt64) : Bool :=
  decide (word >>> (64 - 48) < sampler.failureCutoff)

/-- Draw number `i` on a word stream. -/
def CtDiscreteLaplace.draw (sampler : CtDiscreteLaplace) (words : Nat → UInt64) (i : Nat) : Int :=
  noise sampler.goesOn sampler.trials words i

/-- `t_capacity` after `n` growths. -/
def capacityAfter (tCapacity : Nat) : Nat → Nat
  | 0 => tCapacity
  | n + 1 => saturatingMul (capacityAfter tCapacity n) 2

section Units
variable (math : ResizeMath) (Z A : Nat) (cfg : AutoResizeConfig) (height : Nat)

/-- `deterministic_units` after `n` growths of a tree that had this height when auto-resize was enabled. -/
def unitsAfter (n : Nat) : Int64 :=
  let effectiveT := effectiveTCapacity Z (capacityAfter cfg.tCapacity n)
  let l := leafCount (height + n)
  math.deterministicUnits effectiveT l (dpInitialK math effectiveT l A) cfg.alpha A

/-- The threshold of `dp_epoch_units` without its noise. -/
def thresholdAfter (sampler : CtDiscreteLaplace) (n : Nat) : Int :=
  (unitsAfter math Z A cfg height n).toInt - (math.quantile sampler cfg.alpha).toInt -
    (math.quantile sampler (math.attemptsTail cfg.alpha)).toInt

/-- No threshold wraps around. -/
structure Unwrapped (sampler : CtDiscreteLaplace) : Prop where
  trials : sampler.trials < 2 ^ 60
  estimator : 0 ≤ (math.quantile sampler cfg.alpha).toInt ∧
    (math.quantile sampler cfg.alpha).toInt ≤ sampler.trials
  attempts : 0 ≤ (math.quantile sampler (math.attemptsTail cfg.alpha)).toInt ∧
    (math.quantile sampler (math.attemptsTail cfg.alpha)).toInt ≤ sampler.trials
  units : ∀ n, -2 ^ 62 ≤ (unitsAfter math Z A cfg height n).toInt ∧ (unitsAfter math Z A cfg height n).toInt ≤ 2 ^ 62

end Units

section Draws
variable {math : ResizeMath} {words : Nat → UInt64} {sampler : CtDiscreteLaplace} {rng : AutoResizeRng} {i : Nat}

/-- A sample is the difference of the two runs from the position of the generator on. -/
theorem sample_runs (math : ResizeMath) (words : Nat → UInt64) (fits : sampler.trials < 2 ^ 63) (rng : AutoResizeRng) :
    (sampler.sample (math.withWords words) rng).1.toInt =
        (Tape.run sampler.goesOn words rng.drawn sampler.trials : Int) -
          Tape.run sampler.goesOn words (rng.drawn + sampler.trials) sampler.trials ∧
      (sampler.sample (math.withWords words) rng).2.drawn = rng.drawn + 2 * sampler.trials := by
  rw [CtDiscreteLaplace.sample_eq_sampleWith, CtDiscreteLaplace.sampleWith_streamWord]
  have run : ∀ start, cappedRun sampler.failureCutoff
      ((List.range sampler.trials).map fun j => words (start + j)) = Tape.run sampler.goesOn words start sampler.trials :=
    fun _ => rfl
  refine ⟨?_, rfl⟩
  change (Int64.ofNat (cappedRun _ ((List.range _).map fun j => words (rng.drawn + j))) - Int64.ofNat (cappedRun _
    ((List.range _).map fun j => words (rng.drawn + sampler.trials + j)))).toInt = _
  rw [run, run, CtDiscreteLaplace.toInt_sub_of_small ((Tape.run_le _ _ _ _).trans_lt fits)
    ((Tape.run_le _ _ _ _).trans_lt fits)]

/-- A sample at the position of draw number `i` is that draw. -/
theorem sample_draw (math : ResizeMath) (words : Nat → UInt64) (fits : sampler.trials < 2 ^ 63)
    (position : rng.drawn = 2 * sampler.trials * i) :
    (sampler.sample (math.withWords words) rng).1.toInt = sampler.draw words i ∧
      (sampler.sample (math.withWords words) rng).2.drawn = 2 * sampler.trials * (i + 1) := by
  obtain ⟨value, next⟩ := sample_runs math words fits rng
  rw [value, next, position]
  exact ⟨rfl, rfl⟩

theorem draw_bounds (sampler : CtDiscreteLaplace) (words : Nat → UInt64) (i : Nat) :
    -(sampler.trials : Int) ≤ sampler.draw words i ∧ sampler.draw words i ≤ sampler.trials := by
  have first := Tape.run_le sampler.goesOn words (2 * sampler.trials * i) sampler.trials
  have second := Tape.run_le sampler.goesOn words (2 * sampler.trials * i + sampler.trials) sampler.trials
  rw [CtDiscreteLaplace.draw, noise]
  omega

/-- Sums of this size do not wrap around. -/
theorem toInt_threshold {units theta zeta zeta' : Int64} (hunits : -2 ^ 62 ≤ units.toInt ∧ units.toInt ≤ 2 ^ 62)
    (htheta : -2 ^ 60 ≤ theta.toInt ∧ theta.toInt ≤ 2 ^ 60) (hzeta : 0 ≤ zeta.toInt ∧ zeta.toInt ≤ 2 ^ 60)
    (hzeta' : 0 ≤ zeta'.toInt ∧ zeta'.toInt ≤ 2 ^ 60) :
    (units + theta - zeta - zeta').toInt = units.toInt - zeta.toInt - zeta'.toInt + theta.toInt := by
  rw [Int64.toInt_sub, Int64.toInt_sub, Int64.toInt_add]
  rw [Int.bmod_eq_of_le (n := units.toInt + theta.toInt) (by omega) (by omega)]
  rw [Int.bmod_eq_of_le (n := units.toInt + theta.toInt - zeta.toInt) (by omega) (by omega)]
  rw [Int.bmod_eq_of_le (by omega) (by omega)]
  ring

end Draws
/-- The estimator after the draws and renewals of a meter. -/
structure Tuned (cfg : AutoResizeConfig) (sampler : CtDiscreteLaplace) (m : Meter) (auto : AutoResizeState) :
    Prop where
  drawn : auto.rng.drawn = 2 * sampler.trials * m.draws
  sampler : auto.sampler = sampler
  threshold : auto.tHatUnits.toInt = m.threshold
  tCapacity : auto.config.tCapacity = capacityAfter cfg.tCapacity m.renewals
  alpha : auto.config.alpha = cfg.alpha

section Tuned
variable {math : ResizeMath} {words : Nat → UInt64} {cfg : AutoResizeConfig} {sampler : CtDiscreteLaplace} {height : Nat}
  {m : Meter} {auto : AutoResizeState}

/-- A new threshold is the formula's value and one draw. -/
theorem epochUnits_draw (unwrapped : Unwrapped math Z A cfg height sampler) {rng : AutoResizeRng} {i n : Nat}
    (position : rng.drawn = 2 * sampler.trials * i) :
    let effectiveT := effectiveTCapacity Z (capacityAfter cfg.tCapacity n)
    let l := leafCount (height + n)
    let units := epochUnits (math.withWords words) effectiveT l (dpInitialK (math.withWords words) effectiveT l A)
      cfg.alpha A sampler rng
    units.1.toInt = thresholdAfter math Z A cfg height sampler n + sampler.draw words i ∧
      units.2.drawn = 2 * sampler.trials * (i + 1) := by
  obtain ⟨value, next⟩ := sample_draw math words (by have := unwrapped.trials; omega) position
  refine ⟨?_, next⟩
  have bounds := draw_bounds sampler words i
  obtain ⟨small, estimator, attempts, units⟩ := unwrapped
  rw [← value] at bounds ⊢
  have theta : -2 ^ 60 ≤ (sampler.sample (math.withWords words) rng).1.toInt ∧
      (sampler.sample (math.withWords words) rng).1.toInt ≤ 2 ^ 60 := by omega
  have zeta : (math.quantile sampler cfg.alpha).toInt ≤ 2 ^ 60 := by omega
  have zeta' : (math.quantile sampler (math.attemptsTail cfg.alpha)).toInt ≤ 2 ^ 60 := by omega
  exact toInt_threshold (units n) theta ⟨estimator.1, zeta⟩ ⟨attempts.1, zeta'⟩

theorem evaluateSignal_sample {auto next : AutoResizeState} {signal : Option Nat}
    (evaluated : auto.evaluateSignal math Z = (signal, next)) :
    (signal.isSome = true ↔ auto.tHatUnits.toInt < auto.cSum + (auto.sampler.sample math auto.rng).1.toInt) ∧
      next = { auto with rng := (auto.sampler.sample math auto.rng).2, cSum := 0, evictionsSinceCheck := 0 } := by
  rw [AutoResizeState.evaluateSignal] at evaluated
  generalize auto.sampler.sample math auto.rng = drawn at evaluated ⊢
  obtain ⟨rfl, rfl⟩ := Prod.mk.inj evaluated.symm
  refine ⟨?_, rfl⟩
  by_cases grows : (auto.cSum : Int) + drawn.1.toInt > auto.tHatUnits.toInt
  · simp [grows]
  · simp [grows]

/-- A check is a noisy comparison. -/
theorem Tuned.query (small : sampler.trials < 2 ^ 63) (tuned : Tuned cfg sampler m auto) {count : Nat}
    {signal : Option Nat} {next : AutoResizeState}
    (evaluated : (auto.recordEviction count).evaluateSignal (math.withWords words) Z = (signal, next)) :
    (signal.isSome = true ↔ m.threshold < ((auto.cSum + count : Nat) : Int) + sampler.draw words m.draws) ∧
      Tuned cfg sampler { m with draws := m.draws + 1 } next := by
  obtain ⟨value, position⟩ := sample_draw math words small tuned.drawn
  obtain ⟨above, rfl⟩ := evaluateSignal_sample evaluated
  rw [← tuned.sampler] at value position
  constructor
  · rw [above, ← tuned.threshold, ← tuned.sampler, ← value]
    exact Iff.rfl
  · refine ⟨?_, tuned.sampler, tuned.threshold, tuned.tCapacity, tuned.alpha⟩
    rw [← tuned.sampler]
    exact position

/-- A growth draws a new threshold. -/
theorem Tuned.grown (unwrapped : Unwrapped math Z A cfg height sampler) (tuned : Tuned cfg sampler m auto) :
    Tuned cfg sampler ⟨m.draws + 1, m.renewals + 1,
        thresholdAfter math Z A cfg height sampler (m.renewals + 1) + sampler.draw words m.draws⟩
      (auto.regrown (math.withWords words) Z A (height + (m.renewals + 1))) := by
  have capacity : saturatingMul auto.config.tCapacity 2 = capacityAfter cfg.tCapacity (m.renewals + 1) := by
    rw [tuned.tCapacity]
    rfl
  obtain ⟨value, position⟩ := @epochUnits_draw Z A math words cfg sampler height unwrapped auto.rng _ (m.renewals + 1)
    tuned.drawn
  rw [AutoResizeState.regrown]
  simp only [capacity, tuned.sampler, tuned.alpha]
  exact ⟨position, rfl, value, rfl, rfl⟩

end Tuned

namespace ObliviousHistogram
variable {math : ResizeMath} {words : Nat → UInt64} {cfg : AutoResizeConfig} {sampler : CtDiscreteLaplace} {height : Nat}
  {marks : Nat → Bool} {h g : ObliviousHistogram Z K A S V} {m : Meter}

/-- The draws of a tree in which auto-resize is switched on at this height. -/
structure Metered (math : ResizeMath) (words : Nat → UInt64) (cfg : AutoResizeConfig) (sampler : CtDiscreteLaplace)
    (height : Nat) (m : Meter) (h : ObliviousHistogram Z K A S V) : Prop where
  level : h.height = height + m.renewals
  off : h.autoResize = none → m = Meter.start (thresholdAfter math Z A cfg height sampler) (sampler.draw words)
  on : ∀ auto, h.autoResize = some auto → Tuned cfg sampler m auto

/-- `g` is `h` after steps whose answers are those of the noise. -/
def Metering (math : ResizeMath) (words : Nat → UInt64) (cfg : AutoResizeConfig) (sampler : CtDiscreteLaplace)
    (height : Nat) (marks : Nat → Bool) (m : Meter) (h g : ObliviousHistogram Z K A S V) : Prop :=
  ∃ steps slots, Shows marks h steps slots g ∧
    Answers (thresholdAfter math Z A cfg height sampler) (sampler.draw words) m steps ∧
    Metered math words cfg sampler height
      (m.run (thresholdAfter math Z A cfg height sampler) (sampler.draw words) steps) g

theorem Metering.of_quiet {steps : List (Step PublicEvent)} {slots : Nat} (shows : Shows marks h steps slots g)
    (quiet : ∀ e ∈ steps, e.draws = false) (metered : Metered math words cfg sampler height m g) :
    Metering math words cfg sampler height marks m h g := by
  obtain ⟨answers, run⟩ := Answers.of_quiet (m := m) quiet
  exact ⟨steps, slots, shows, answers, run.symm ▸ metered⟩

theorem Metering.trans {w : ObliviousHistogram Z K A S V} (first : Metering math words cfg sampler height marks m h w)
    (second : ∀ m, Metered math words cfg sampler height m w → Metering math words cfg sampler height marks m w g) :
    Metering math words cfg sampler height marks m h g := by
  obtain ⟨s, i, shows, answers, metered⟩ := first
  obtain ⟨t, j, shows', answers', metered'⟩ := second _ metered
  exact ⟨s ++ t, i + j, shows.trans shows', answers.append _ _ answers', (Meter.run_append _ _ _).symm ▸ metered'⟩

/-- A change that neither moves the height nor the estimator. -/
theorem Metered.congr (metered : Metered math words cfg sampler height m h) (same : g.height = h.height)
    (auto : g.autoResize = h.autoResize) : Metered math words cfg sampler height m g :=
  ⟨same.trans metered.level, fun off => metered.off (auto ▸ off), fun a on => metered.on a (auto ▸ on)⟩

section Operations
variable [Add V] [Inhabited V]

omit [Add V] [Inhabited V] in
theorem evictSteps_quiet (h : ObliviousHistogram Z K A S V) : ∀ e ∈ h.evictSteps, e.draws = false := by
  intro e he
  rw [evictSteps] at he
  split at he
  · simp only [List.cons_append, List.nil_append, List.mem_cons, List.not_mem_nil, or_false] at he
    rcases he with rfl | rfl | rfl <;> rfl
  · simp only [List.append_nil, List.mem_cons, List.not_mem_nil, or_false] at he
    rcases he with rfl | rfl <;> rfl

/-- One eviction. -/
theorem Metered.evict (unwrapped : Unwrapped math Z A cfg height sampler)
    (metered : Metered math words cfg sampler height m h)
    (run : h.evictAfterInsert (math.withWords words) = .ok g) :
    Metering math words cfg sampler height marks m h g := by
  obtain ⟨tail, shows, checked⟩ := evictAfterInsert_shows marks run
  obtain ⟨quiet, still⟩ : Answers (thresholdAfter math Z A cfg height sampler) (sampler.draw words) m h.evictSteps ∧
      m.run (thresholdAfter math Z A cfg height sampler) (sampler.draw words) h.evictSteps = m :=
    Answers.of_quiet (evictSteps_quiet h)
  have small : sampler.trials < 2 ^ 63 := by
    have := unwrapped.trials
    omega
  refine ⟨_, _, shows, quiet.append _ _ ?_, ?_⟩
  · rw [still]
    cases checked with
    | early => trivial
    | kept auto before due signal next evaluated =>
      exact ⟨((metered.on auto before).query small evaluated).1, trivial⟩
    | grown auto before due target next evaluated =>
      exact ⟨((metered.on auto before).query small evaluated).1, trivial, trivial⟩
  · rw [Meter.run_append, still]
    cases checked with
    | early early after height epoch =>
      refine ⟨height.trans metered.level, fun off => metered.off ?_, fun auto' on => ?_⟩
      · rw [after] at off
        exact Option.map_eq_none_iff.mp off
      · rw [after] at on
        obtain ⟨auto, before, rfl⟩ := Option.map_eq_some_iff.mp on
        obtain ⟨drawn, source, threshold, tCapacity, alpha⟩ := metered.on auto before
        exact ⟨drawn, source, threshold, tCapacity, alpha⟩
    | kept auto before due signal next evaluated quiet after height epoch =>
      refine ⟨height.trans metered.level, fun off => ?_, fun auto' on => ?_⟩
      · exact absurd (after.symm.trans off) (Option.some_ne_none _)
      · obtain rfl := Option.some.inj (after.symm.trans on)
        obtain ⟨drawn, source, threshold, tCapacity, alpha⟩ := ((metered.on auto before).query small evaluated).2
        exact ⟨drawn, source, threshold, tCapacity, alpha⟩
    | grown auto before due target next evaluated immediate after height epoch =>
      refine ⟨?_, fun off => ?_, fun auto' on => ?_⟩
      · rw [height, metered.level]
        rfl
      · exact absurd (after.symm.trans off) (Option.some_ne_none _)
      · obtain rfl := Option.some.inj (after.symm.trans on)
        rw [metered.level]
        exact ((metered.on auto before).query small evaluated).2.grown unwrapped

theorem Metered.evictIf (unwrapped : Unwrapped math Z A cfg height sampler)
    (metered : Metered math words cfg sampler height m h) {due : Prop} [Decidable due]
    (run : (if due then h.evictAfterInsert (math.withWords words) else .ok h) = .ok g) :
    Metering math words cfg sampler height marks m h g := by
  split at run
  · exact metered.evict unwrapped run
  · simp only [Except.ok.injEq] at run
    subst run
    exact .of_quiet (.of_trace rfl) (by simp) metered

omit [Add V] [Inhabited V] in
theorem slotSteps_quiet (marks : Nat → Bool) (start count : Nat) :
    ∀ e ∈ slotSteps marks start count, e.draws = false := by
  intro e he
  obtain ⟨i, -, rfl⟩ := List.mem_map.mp he
  rfl

omit [Add V] [Inhabited V] in
theorem Metering.filled {known : UInt64 × Vector UInt8 K → Prop} {count : Nat} {blocks : List (OramBlock K V)}
    (metered : Metered math words cfg sampler height m h) (filled : Filled known h count blocks g)
    (shows : Shows marks h (slotSteps marks (slotsOf h.trace) count) count g) :
    Metering math words cfg sampler height marks m h g :=
  .of_quiet shows (slotSteps_quiet _ _ _) (metered.congr filled.height filled.autoResize)

theorem Metered.batch (unwrapped : Unwrapped math Z A cfg height sampler) (inv : h.Inv fun _ => True)
    (metered : Metered math words cfg sampler height m h) {updates : List (PreparedUpdate K V)}
    (run : h.appendPreparedMaskedBatch (math.withWords words) updates = .ok g) :
    Metering math words cfg sampler height marks m h g := by
  induction hn : updates.length using Nat.strong_induction_on generalizing h updates m with
  | _ n ih =>
    by_cases none : updates = []
    · rw [none, appendPreparedMaskedBatch, dif_pos rfl, Except.ok.injEq] at run
      subst run
      exact .of_quiet (.of_trace rfl) (by simp) metered
    obtain ⟨progress, -, w, e, filled, shows, evicted, run⟩ := batch_shows marks inv
      (fun _ _ _ _ => trivial) none run
    have moves := evictIf_reshuffle filled.inv.shape.height_le evicted
    refine (Metering.filled metered filled shows).trans fun m metered => (metered.evictIf unwrapped evicted).trans
      fun m metered => ih _ ?_ (moves.inv filled.inv) metered run rfl
    have := List.length_pos_iff.mpr none
    rw [List.length_drop]
    omega

omit [Add V] in
/-- A forced growth. -/
theorem Metered.deferredGrow (unwrapped : Unwrapped math Z A cfg height sampler)
    (metered : Metered math words cfg sampler height m h) {target : Nat}
    (run : h.applyDeferredAutoResizeGrow (math.withWords words) target = .ok g) :
    Metering math words cfg sampler height marks m h g := by
  have grown := applyDeferredAutoResizeGrow_grown run
  refine ⟨_, _, applyDeferredAutoResizeGrow_shows _ run, ⟨trivial, trivial⟩, ?_⟩
  have after : g.autoResize = (h.autoResize.map AutoResizeState.resetCounters).map
      fun auto => auto.regrown (math.withWords words) Z A (h.height + 1) := grown.autoResize
  obtain ⟨deferred, -⟩ := applyDeferredAutoResizeGrow_spec run
  cases before : h.autoResize with
  | none =>
    rw [before] at deferred
    exact absurd deferred (by simp)
  | some auto =>
    rw [before] at after
    refine ⟨?_, fun off => ?_, fun auto' on => ?_⟩
    · rw [grown.height]
      exact congrArg (· + 1) metered.level
    · exact absurd (after.symm.trans off) (Option.some_ne_none _)
    · obtain rfl := Option.some.inj (after.symm.trans on)
      obtain ⟨drawn, source, threshold, tCapacity, alpha⟩ := metered.on auto before
      rw [metered.level]
      have reset : Tuned cfg sampler m auto.resetCounters := ⟨drawn, source, threshold, tCapacity, alpha⟩
      exact reset.grown unwrapped

omit [Add V] [Inhabited V] in
/-- Auto-resize is switched on: the first draw. -/
theorem Metered.configure (unwrapped : Unwrapped math Z A cfg height sampler)
    (source : math.newSampler cfg.eps = .ok sampler) (metered : Metered math words cfg sampler height m h)
    (off : h.autoResize = none) {deferChecks emits : Bool}
    (run : h.configureAutoResize (math.withWords words) cfg deferChecks emits = .ok g) :
    Metering math words cfg sampler height marks m h g := by
  have start := metered.off off
  have level : h.height = height + 0 := by
    rw [metered.level, start]
    rfl
  obtain ⟨sampler', made, -, rfl⟩ := configureAutoResize_spec run
  obtain rfl : sampler' = sampler := Except.ok.inj (made.symm.trans source)
  obtain ⟨value, position⟩ := @epochUnits_draw Z A math words cfg sampler' height unwrapped
    { seed := cfg.seed, drawn := 0 } 0 0 rfl
  rw [← level] at value position
  refine .of_quiet (.of_trace rfl) (by simp) ⟨metered.level, fun off => absurd off (Option.some_ne_none _),
    fun auto on => ?_⟩
  obtain rfl := Option.some.inj on
  rw [start]
  exact ⟨position, rfl, value, rfl, rfl⟩

end Operations
end ObliviousHistogram

/-- The operations of a tree whose resizes are its own: no manual growth, no forced one and no
change of the configuration. -/
def TreeOp.Routine : TreeOp K V → Prop
  | .append _ _ => True
  | .appendBatch _ => True
  | .readTotal _ => True
  | .readDummy _ => True
  | .flush => True
  | .handleDeferredResize => True
  | _ => False

/-- The number of insert slots of an operation. -/
def TreeOp.slots : TreeOp K V → Nat
  | .append _ _ => 1
  | .appendBatch updates => updates.length
  | _ => 0

/-- Auto-resize in one of the modes in which a check may end in a growth. -/
def TreeOp.Enables (cfg : AutoResizeConfig) (op : TreeOp K V) : Prop :=
  op = .enableAutoResize cfg ∨ op = .enableDeferredAutoResize cfg true

namespace ObliviousHistogram
variable {math : ResizeMath} {words : Nat → UInt64} {cfg : AutoResizeConfig} {sampler : CtDiscreteLaplace} {height : Nat}
  {marks : Nat → Bool} {h g : ObliviousHistogram Z K A S V} {m : Meter} [Add V] [Inhabited V]

/-- One operation. -/
theorem Metered.step (unwrapped : Unwrapped math Z A cfg height sampler) (inv : h.Inv fun _ => True)
    (metered : Metered math words cfg sampler height m h) {op : TreeOp K V} (routine : op.Routine) {out : Option V}
    (run : h.step (math.withWords words) op = .ok (out, g)) :
    Metering math words cfg sampler height marks m h g := by
  cases op with
  | append key val =>
    obtain ⟨r, hr, same⟩ := map_ok run
    obtain ⟨-, rfl⟩ := Prod.mk.inj same
    obtain ⟨w, filled, shows, evicted⟩ := addPreparedInner_shows marks inv (fun _ => trivial) hr
    exact (Metering.filled metered filled shows).trans fun m metered => metered.evictIf unwrapped evicted
  | appendBatch updates =>
    obtain ⟨r, hr, same⟩ := map_ok run
    obtain ⟨-, rfl⟩ := Prod.mk.inj same
    exact metered.batch unwrapped inv hr
  | readTotal key =>
    obtain ⟨⟨v, r⟩, hr, run⟩ := bind_ok run
    simp only [pure, Except.pure, Except.ok.injEq, Prod.mk.injEq] at run
    obtain ⟨-, rfl⟩ := run
    have still := readPreparedTotal_still hr
    exact .of_quiet (readPreparedTotal_shows _ hr) (by simp [Step.draws]) (metered.congr still.height still.autoResize)
  | readDummy draw =>
    obtain ⟨r, hr, same⟩ := map_ok run
    obtain ⟨-, rfl⟩ := Prod.mk.inj same
    have still := readDummy_still hr
    exact .of_quiet (readDummy_shows _ hr) (by simp [Step.draws]) (metered.congr still.height still.autoResize)
  | flush =>
    simp only [ObliviousHistogram.step, Except.ok.injEq, Prod.mk.injEq] at run
    exact run.2 ▸ .of_quiet (.of_trace rfl) (by simp) metered
  | handleDeferredResize =>
    obtain ⟨r, hr, same⟩ := map_ok run
    obtain ⟨-, rfl⟩ := Prod.mk.inj same
    obtain ⟨auto, -, ⟨-, rfl⟩ | ⟨target, -, grown⟩⟩ := handleDeferredResize_spec hr
    · exact .of_quiet (.of_trace rfl) (by simp) metered
    · exact metered.deferredGrow unwrapped grown
  | grow | enableAutoResize | enableDeferredAutoResize | takeDeferredSignal | applyDeferredGrow => exact routine.elim

/-- A run of such operations. -/
theorem Metered.run (unwrapped : Unwrapped math Z A cfg height sampler) (inv : h.Inv fun _ => True)
    (metered : Metered math words cfg sampler height m h) {ops : List (TreeOp K V)}
    (routine : ∀ op ∈ ops, op.Routine) {outs : List (Option V)}
    (run : h.run (math.withWords words) ops = .ok (outs, g)) : Metering math words cfg sampler height marks m h g := by
  induction ops generalizing h m outs with
  | nil =>
    simp only [ObliviousHistogram.run, Except.ok.injEq, Prod.mk.injEq] at run
    exact run.2 ▸ .of_quiet (.of_trace rfl) (by simp) metered
  | cons op ops ih =>
    obtain ⟨out, rest, w, hstep, hrun, -⟩ := run_cons run
    refine (metered.step unwrapped inv (routine op (.head _)) hstep).trans fun m metered =>
      ih ?_ metered (fun op hop => routine op (.tail _ hop)) hrun
    exact (step_inv inv (fun _ _ => trivial) hstep).1

end ObliviousHistogram
end Roga
