import Roga.Histogram.Calibration

/-! How far the noise of a resize check can mislead it. The quantiles that lower the
threshold bound each draw, so that the decision of every check of a run is the right one
unless its count is close to the threshold. -/
namespace Roga
open Ct Reals ObliviousStash SparseVector ObliviousHistogram Literal
variable {Z K A S : Nat} {V : Type} {math : ResizeMath}

/-- `upper_quantile`, with its arithmetic over the reals; both casts saturate. -/
noncomputable def CtDiscreteLaplace.upperQuantile (sampler : CtDiscreteLaplace) (probability : ℝ) : Except Panic Int :=
  if 0 < probability ∧ probability < 1 / 2 then
    let q := sampler.ratio
    let z := ⌈Real.log (probability * (1 + q)) / Real.log q⌉ - 1
    .ok (min (min (max z 0) (2 ^ 63 - 1)) (Int64.ofNat sampler.trials).toInt)
  else .error (.assertion "tail probability must be finite and in (0, 0.5)")

section Quantile
variable {eps probability : ℝ} {sampler : CtDiscreteLaplace} {zeta : Int} {M : Nat}

/-- The formula inverts the tail of the law. -/
theorem law_Ioi_le_iff {q : ℝ} (pos : 0 < q) (below : q < 1) (some : 0 < probability) (z : Nat) :
    Laplace.law q (Set.Ioi (z : Int)) ≤ probability ↔
      ⌈Real.log (probability * (1 + q)) / Real.log q⌉ - 1 ≤ (z : Int) := by
  have slope : Real.log q < 0 := Real.log_neg pos below
  have top : 0 < 1 + q := by linarith
  calc Laplace.law q (Set.Ioi (z : Int)) ≤ probability ↔ q ^ (z + 1) / (1 + q) ≤ probability := by
        rw [Laplace.law_Ioi pos.le below]
    _ ↔ q ^ (z + 1) ≤ probability * (1 + q) := div_le_iff₀ top
    _ ↔ Real.log (q ^ (z + 1)) ≤ Real.log (probability * (1 + q)) :=
      (Real.log_le_log_iff (pow_pos pos _) (mul_pos some top)).symm
    _ ↔ ((z : ℤ) + 1 : ℤ) * Real.log q ≤ Real.log (probability * (1 + q)) := by
      rw [Real.log_pow]
      push_cast
      rfl
    _ ↔ Real.log (probability * (1 + q)) / Real.log q ≤ ((z : ℤ) + 1 : ℤ) := (div_le_iff_of_neg slope).symm
    _ ↔ ⌈Real.log (probability * (1 + q)) / Real.log q⌉ ≤ (z : Int) + 1 := Int.ceil_le.symm
    _ ↔ ⌈Real.log (probability * (1 + q)) / Real.log q⌉ - 1 ≤ (z : Int) := by omega

/-- The result is the quantile of the law, cut off at the number of trials. -/
theorem upperQuantile_eq (made : CtDiscreteLaplace.new eps = .ok sampler) (low : 0 < probability)
    (high : probability < 1 / 2) : ∃ z : Nat,
      IsLeast {z : Nat | Laplace.law sampler.ratio (Set.Ioi (z : Int)) ≤ probability} z ∧
        sampler.upperQuantile probability = .ok (min z sampler.trials : Nat) := by
  obtain ⟨pos, below⟩ := ratio_mem_of_new made
  have tail := law_Ioi_le_iff pos below low
  refine ⟨(⌈Real.log (probability * (1 + sampler.ratio)) / Real.log sampler.ratio⌉ - 1).toNat, ⟨?_, ?_⟩, ?_⟩
  · exact (tail _).mpr (Int.self_le_toNat _)
  · intro z small
    exact Int.toNat_le.mpr ((tail z).mp small)
  · have few := trials_lt made
    have trials : (Int64.ofNat sampler.trials).toInt = sampler.trials := Int64.toInt_ofNat_of_lt (by omega)
    rw [CtDiscreteLaplace.upperQuantile, if_pos ⟨low, high⟩]
    refine congrArg Except.ok ?_
    rw [trials]
    omega

theorem probability_of_upperQuantile (quantile : sampler.upperQuantile probability = .ok zeta) :
    0 < probability ∧ probability < 1 / 2 := by
  by_contra outside
  rw [CtDiscreteLaplace.upperQuantile, if_neg outside] at quantile
  exact nomatch quantile

theorem upperQuantile_mem (made : CtDiscreteLaplace.new eps = .ok sampler)
    (quantile : sampler.upperQuantile probability = .ok zeta) : 0 ≤ zeta ∧ zeta ≤ sampler.trials := by
  obtain ⟨low, high⟩ := probability_of_upperQuantile quantile
  obtain ⟨z, -, value⟩ := upperQuantile_eq made low high
  obtain rfl := Except.ok.inj (quantile.symm.trans value)
  omega

/-- At epsilon 30 the levels between 1/10000 and 1/200 have the quantile 1. -/
theorem quantile_thirty (made : CtDiscreteLaplace.new 30 = .ok sampler) (low : 1 / 10000 ≤ probability)
    (high : probability ≤ 1 / 200) : sampler.upperQuantile probability = .ok 1 := by
  obtain ⟨z, ⟨within, least⟩, value⟩ := upperQuantile_eq made (show 0 < probability by linarith) (by linarith)
  obtain ⟨pos, below⟩ := ratio_mem_of_new made
  obtain ⟨above, under⟩ := ratio_thirty made
  rw [Set.mem_ofPred_eq, Laplace.law_Ioi pos.le below] at within
  have more : z ≠ 0 := by
    rintro rfl
    have first : 1 / 200 < sampler.ratio ^ (0 + 1) / (1 + sampler.ratio) := by
      rw [lt_div_iff₀ (by linarith), zero_add, pow_one]
      linarith
    linarith
  have one : z ≤ 1 := by
    apply least
    have second : sampler.ratio ^ (1 + 1) / (1 + sampler.ratio) ≤ 1 / 10000 := by
      rw [div_le_iff₀ (by linarith)]
      nlinarith
    rw [Set.mem_ofPred_eq, Laplace.law_Ioi pos.le below]
    exact second.trans low
  have some : 0 < sampler.trials := by
    rw [trials_of_new made]
    exact trialsFor_pos pos below
  rw [value, show min z sampler.trials = 1 by omega]
  rfl

/-- From any place on, the difference of two runs exceeds the quantile of a probability no likelier than that, in
either direction. -/
theorem runs_tail (made : CtDiscreteLaplace.new eps = .ok sampler)
    (quantile : sampler.upperQuantile probability = .ok zeta) {start : Nat} (room : start + 2 * sampler.trials ≤ M) :
    Tape.prob (fun tape : Fin M → UInt64 => zeta < (Tape.run sampler.goesOn (Tape.stream tape) start sampler.trials : Int) -
        Tape.run sampler.goesOn (Tape.stream tape) (start + sampler.trials) sampler.trials) ≤ probability ∧
      Tape.prob (fun tape : Fin M → UInt64 => (Tape.run sampler.goesOn (Tape.stream tape) start sampler.trials : Int) -
        Tape.run sampler.goesOn (Tape.stream tape) (start + sampler.trials) sampler.trials < -zeta) ≤ probability := by
  obtain ⟨low, high⟩ := probability_of_upperQuantile quantile
  obtain ⟨z, least, value⟩ := upperQuantile_eq made low high
  obtain rfl := Except.ok.inj (quantile.symm.trans value)
  obtain ⟨pos, below⟩ := ratio_mem_of_new made
  have first : start + sampler.trials ≤ M := by omega
  have second : start + sampler.trials + sampler.trials ≤ M := by omega
  -- beyond the cap there is no draw, and up to it the law without caps is an upper bound
  have tail : ∀ (event : (Fin M → UInt64) → Prop), (sampler.trials ≤ z → ∀ tape, ¬ event tape) →
      (z < sampler.trials → Tape.prob event ≤ Tape.rate sampler.goesOn ^ (z + 1) / (1 + Tape.rate sampler.goesOn)) →
        Tape.prob event ≤ probability := by
    intro event never bounded
    rcases Nat.lt_or_ge z sampler.trials with inside | outside
    · refine (bounded inside).trans ?_
      rw [rate_of_new made, ← Laplace.law_Ioi pos.le below]
      exact least.1
    · rw [Tape.prob_eq_zero (never outside)]
      exact low.le
  constructor
  · refine tail _ (fun outside tape above => ?_) fun inside => ?_
    · have := Tape.run_le sampler.goesOn (Tape.stream tape) start sampler.trials
      omega
    · refine (Tape.prob_mono fun tape above => ?_).trans
        (Laplace.prob_exceeds_le (rate_lt_one made) first second (.inl (Nat.le_refl _)) z)
      omega
  · refine tail _ (fun outside tape above => ?_) fun inside => ?_
    · have := Tape.run_le sampler.goesOn (Tape.stream tape) (start + sampler.trials) sampler.trials
      omega
    · refine (Tape.prob_mono fun tape above => ?_).trans
        (Laplace.prob_exceeds_le (rate_lt_one made) second first (.inr (Nat.le_refl _)) z)
      omega

/-- A draw exceeds the quantile of a probability no likelier than that, in either direction. -/
theorem draw_tail (made : CtDiscreteLaplace.new eps = .ok sampler)
    (quantile : sampler.upperQuantile probability = .ok zeta) {i : Nat} (room : 2 * sampler.trials * (i + 1) ≤ M) :
    Tape.prob (fun tape : Fin M → UInt64 => zeta < sampler.draw (Tape.stream tape) i) ≤ probability ∧
      Tape.prob (fun tape : Fin M → UInt64 => sampler.draw (Tape.stream tape) i < -zeta) ≤ probability :=
  runs_tail made quantile room

/-- `upper_quantile` is the least non-negative number whose upper tail in the law is that rare, cut off at the
number of trials, and no sample exceeds it likelier than that, in either direction. -/
theorem upper_quantile_bounds_samples (made : CtDiscreteLaplace.new eps = .ok sampler) (low : 0 < probability)
    (high : probability < 1 / 2) : ∃ z : Nat,
      IsLeast {z : Nat | Laplace.law sampler.ratio (Set.Ioi (z : Int)) ≤ probability} z ∧
      sampler.upperQuantile probability = .ok (min z sampler.trials : Nat) ∧
      ∀ (math : ResizeMath) (rng : AutoResizeRng) (M : Nat), rng.drawn + 2 * sampler.trials ≤ M →
        Tape.prob (fun tape : Fin M → UInt64 =>
          (min z sampler.trials : Nat) < (sampler.sample (math.withWords (Tape.stream tape)) rng).1.toInt) ≤ probability ∧
        Tape.prob (fun tape : Fin M → UInt64 =>
          (sampler.sample (math.withWords (Tape.stream tape)) rng).1.toInt < -(min z sampler.trials : Nat)) ≤
            probability := by
  obtain ⟨z, least, value⟩ := upperQuantile_eq made low high
  refine ⟨z, least, value, ?_⟩
  intro math rng M room
  have fits : sampler.trials < 2 ^ 63 := by
    have := trials_lt made
    omega
  have draws : ∀ tape : Fin M → UInt64, (sampler.sample (math.withWords (Tape.stream tape)) rng).1.toInt =
      (Tape.run sampler.goesOn (Tape.stream tape) rng.drawn sampler.trials : Int) -
        Tape.run sampler.goesOn (Tape.stream tape) (rng.drawn + sampler.trials) sampler.trials :=
    fun tape => (sample_runs math _ fits rng).1
  simp only [draws]
  exact runs_tail made value room

theorem upper_quantile_bounds_samples_one : ∃ sampler z, CtDiscreteLaplace.new 1 = .ok sampler ∧
    sampler.upperQuantile (1 / 20) = .ok (min z sampler.trials : Nat) ∧
    Tape.prob (fun tape : Fin (5 + 2 * sampler.trials) → UInt64 => (min z sampler.trials : Nat) <
      (sampler.sample (ResizeMath.constant.withWords (Tape.stream tape)) ⟨7, 5⟩).1.toInt) ≤ 1 / 20 := by
  obtain ⟨sampler, made⟩ := new_of_one_le (le_refl 1)
  obtain ⟨z, -, value, bounds⟩ := upper_quantile_bounds_samples made (show (0 : ℝ) < 1 / 20 by norm_num) (by norm_num)
  exact ⟨sampler, z, made, value, (bounds .constant ⟨7, 5⟩ _ (Nat.le_refl _)).1⟩

end Quantile

/-- A check at a count above the units of its interval has let the tree as it is. -/
def Overlooked (units : Nat → Int) (trace : List Event) : Prop :=
  ∃ later cSum earlier, trace = later ++ .signal cSum none :: earlier ∧ units (growthsOf earlier).length < (cSum : Nat)

/-- A check has called for a growth although its count is below the units of its interval by this margin. -/
def Premature (units : Nat → Int) (margin : Int) (trace : List Event) : Prop :=
  ∃ later cSum target earlier, trace = later ++ .signal cSum (some target) :: earlier ∧
    (cSum : Nat) ≤ units (growthsOf earlier).length - margin

section Checks

theorem countP_renews_traceSteps (marks : Nat → Bool) (trace : List Event) :
    (traceSteps marks trace).countP Step.renews = (growthsOf trace).length := by
  induction trace with
  | nil => rfl
  | cons event trace ih =>
    rw [traceSteps, List.countP_append, ih, growthsOf, growthsOf, List.filterMap_cons]
    cases event with
    | grown window => exact Nat.add_comm _ _
    | _ => exact Nat.zero_add _

variable {cfg : AutoResizeConfig} {eps alpha : ℝ} {sampler : CtDiscreteLaplace} {cap height M : Nat} {prf : Aes128}
  {before after : List (TreeOp K V)} {enable : TreeOp K V} {zeta zeta' : Int}

/-- Thresholds of a configured sampler with exact quantiles do not wrap around as long as the units do not. -/
theorem unwrapped_of_new (made : CtDiscreteLaplace.new eps = .ok sampler)
    (estimator : sampler.upperQuantile alpha = .ok zeta) (attempts : sampler.upperQuantile ((2 * alpha) ^ 2) = .ok zeta')
    (same : (math.quantile sampler cfg.alpha).toInt = zeta)
    (same' : (math.quantile sampler (math.attemptsTail cfg.alpha)).toInt = zeta')
    (units : ∀ n, -2 ^ 62 ≤ (unitsAfter math Z A cfg height n).toInt ∧ (unitsAfter math Z A cfg height n).toInt ≤ 2 ^ 62) :
    Unwrapped math Z A cfg height sampler :=
  ⟨trials_lt made, same ▸ upperQuantile_mem made estimator, same' ▸ upperQuantile_mem made attempts, units⟩

variable [Add V] [Inhabited V]

/-- Each check of a run compares its count and one draw with the threshold of its interval and another draw. -/
theorem check_compares {words : Nat → UInt64} (unwrapped : Unwrapped math Z A cfg height sampler)
    (source : math.newSampler cfg.eps = .ok sampler) (start : treeHeightForCapacity cap Z = .ok height)
    (enables : enable.Enables cfg) (routine : ∀ op ∈ before ++ after, op.Routine) {outs : List (Option V)}
    {g : ObliviousHistogram Z K A S V}
    (run : runNew (math.withWords words) cap prf (before ++ enable :: after) = .ok (outs, g))
    {later earlier : List Event} {cSum : Nat} {result : Option Nat}
    (trace : g.trace = later ++ .signal cSum result :: earlier) :
    let draws := 2 * ((before ++ enable :: after).map TreeOp.slots).sum + 1
    ∃ j < draws, ∃ i < draws, (result.isSome = true ↔
      thresholdAfter math Z A cfg height sampler (growthsOf earlier).length + sampler.draw words j <
        (cSum : Int) + sampler.draw words i) := by
  intro draws
  have answers : Answers _ _ _ (g.transcript fun _ => false) :=
    answers_of_run unwrapped source start enables routine run
  have drawn := (counts_of_run start enables routine run).2
  have split : g.transcript (fun _ => false) = (traceSteps (fun _ => false) earlier).reverse ++
      .query cSum result.isSome :: (traceSteps (fun _ => false) later).reverse := by
    rw [transcript, trace, traceSteps_append, traceSteps, List.reverse_append, Event.step, Option.toList_some,
      List.singleton_append, List.reverse_cons, List.append_assoc, List.singleton_append]
  rw [split] at answers
  obtain ⟨j, i, before, position, compares⟩ := answers.query ⟨0, Nat.one_pos, rfl⟩
  rw [ObliviousHistogram.drawn, split, List.countP_append, List.countP_cons_of_pos (by rfl)] at drawn
  have renewals : (Meter.start (thresholdAfter math Z A cfg height sampler) (sampler.draw words)).renewals +
      (traceSteps (fun _ => false) earlier).reverse.countP Step.renews = (growthsOf earlier).length := by
    rw [List.countP_reverse, countP_renews_traceSteps]
    exact Nat.zero_add _
  have first : (Meter.start (thresholdAfter math Z A cfg height sampler) (sampler.draw words)).draws = 1 := rfl
  rw [renewals] at compares
  exact ⟨j, by omega, i, by omega, compares⟩

/-- One of the draws exceeds the quantile of its probability only with the probabilities together, for each draw. -/
theorem prob_some_draw_le (made : CtDiscreteLaplace.new eps = .ok sampler) {probability probability' : ℝ}
    (quantile : sampler.upperQuantile probability = .ok zeta) (quantile' : sampler.upperQuantile probability' = .ok zeta')
    {draws : Nat} (room : 2 * sampler.trials * draws ≤ M) {event : (Fin M → UInt64) → Prop}
    (caught : ∀ tape, event tape → ∃ i < draws, zeta < sampler.draw (Tape.stream tape) i ∨
      sampler.draw (Tape.stream tape) i < -zeta') : Tape.prob event ≤ draws * (probability + probability') := by
  refine (Tape.prob_mono caught).trans (Tape.prob_exists_le _ _ fun i hi => ?_)
  have inside : 2 * sampler.trials * (i + 1) ≤ M := (Nat.mul_le_mul_left _ hi).trans room
  exact (Tape.prob_or_le fun _ h => h).trans
    (add_le_add (draw_tail made quantile inside).1 (draw_tail made quantile' inside).2)

/-- In a whole run no check whose count is above the units of its interval lets the tree as it is, and none
calls for a growth unless its count is within twice the two quantiles of them, up to the two failure
probabilities for each draw. -/
theorem checks_accurate (enables : enable.Enables cfg) (routine : ∀ op ∈ before ++ after, op.Routine)
    (start : treeHeightForCapacity cap Z = .ok height) (made : CtDiscreteLaplace.new eps = .ok sampler)
    (source : math.newSampler cfg.eps = .ok sampler)
    (estimator : sampler.upperQuantile alpha = .ok zeta) (attempts : sampler.upperQuantile ((2 * alpha) ^ 2) = .ok zeta')
    (same : (math.quantile sampler cfg.alpha).toInt = zeta)
    (same' : (math.quantile sampler (math.attemptsTail cfg.alpha)).toInt = zeta')
    (fits : ∀ n, -2 ^ 62 ≤ (unitsAfter math Z A cfg height n).toInt ∧ (unitsAfter math Z A cfg height n).toInt ≤ 2 ^ 62) :
    let ops := before ++ enable :: after
    let draws := 2 * (ops.map TreeOp.slots).sum + 1
    let units := fun n => (unitsAfter math Z A cfg height n).toInt
    2 * sampler.trials * draws ≤ M →
    Tape.prob (fun tape : Fin M → UInt64 => ∃ (outs : List (Option V)) (h : ObliviousHistogram Z K A S V),
      runNew (math.withWords (Tape.stream tape)) cap prf ops = .ok (outs, h) ∧ Overlooked units h.trace) ≤
        draws * (alpha + (2 * alpha) ^ 2) ∧
    Tape.prob (fun tape : Fin M → UInt64 => ∃ (outs : List (Option V)) (h : ObliviousHistogram Z K A S V),
      runNew (math.withWords (Tape.stream tape)) cap prf ops = .ok (outs, h) ∧
        Premature units (2 * (zeta + zeta')) h.trace) ≤ draws * (alpha + (2 * alpha) ^ 2) := by
  intro ops draws units room
  have unwrapped := unwrapped_of_new made estimator attempts same same' fits
  have threshold : ∀ n, thresholdAfter math Z A cfg height sampler n = units n - zeta - zeta' := fun n => by
    rw [thresholdAfter, same, same']
  constructor
  · rw [add_comm alpha]
    refine prob_some_draw_le made attempts estimator room ?_
    rintro tape ⟨outs, h, run, later, cSum, earlier, trace, above⟩
    obtain ⟨j, hj, i, hi, compares⟩ := check_compares unwrapped source start enables routine run trace
    rw [threshold] at compares
    -- either the threshold or the estimate is off
    have kept : ¬ units (growthsOf earlier).length - zeta - zeta' + sampler.draw (Tape.stream tape) j <
        (cSum : Int) + sampler.draw (Tape.stream tape) i := fun grows => Bool.false_ne_true (compares.mpr grows)
    by_cases raised : zeta' < sampler.draw (Tape.stream tape) j
    · exact ⟨j, hj, .inl raised⟩
    · exact ⟨i, hi, .inr (by omega)⟩
  · refine prob_some_draw_le made estimator attempts room ?_
    rintro tape ⟨outs, h, run, later, cSum, target, earlier, trace, low⟩
    obtain ⟨j, hj, i, hi, compares⟩ := check_compares unwrapped source start enables routine run trace
    rw [threshold] at compares
    have grows := compares.mp rfl
    by_cases lowered : sampler.draw (Tape.stream tape) j < -zeta'
    · exact ⟨j, hj, .inr lowered⟩
    · exact ⟨i, hi, .inl (by omega)⟩

theorem checks_accurate_thirty : ∃ sampler, CtDiscreteLaplace.new 30 = .ok sampler ∧
    let math := { ResizeMath.constant with
      newSampler := fun _ => .ok sampler
      quantile := fun _ _ => 1 }
    let ops : List (TreeOp 1 Nat) := [.enableAutoResize ⟨4, 30, 0.005, 7⟩, .append [1] 5]
    Tape.prob (fun tape : Fin (2 * sampler.trials * 3) → UInt64 => ∃ (outs : List (Option Nat))
      (h : ObliviousHistogram 1 1 1 4 Nat), runNew (math.withWords (Tape.stream tape)) 2 id ops = .ok (outs, h) ∧
        Overlooked (fun _ => 0) h.trace) ≤ 3 * (1 / 200 + (2 * (1 / 200)) ^ 2) := by
  obtain ⟨sampler, made⟩ := new_of_one_le (show (1 : ℝ) ≤ 30 by norm_num)
  refine ⟨sampler, made, ?_⟩
  intro math ops
  have start : treeHeightForCapacity 2 1 = .ok 1 := by decide
  have zero : -2 ^ 62 ≤ (0 : Int64).toInt ∧ (0 : Int64).toInt ≤ 2 ^ 62 := by decide
  have one : (1 : Int64).toInt = (1 : Int) := by decide
  have routine : ∀ op ∈ [] ++ ([.append [1] 5] : List (TreeOp 1 Nat)), op.Routine := by simp [TreeOp.Routine]
  have fits : ∀ n, -2 ^ 62 ≤ (unitsAfter math 1 1 ⟨4, 30, 0.005, 7⟩ 1 n).toInt ∧
      (unitsAfter math 1 1 ⟨4, 30, 0.005, 7⟩ 1 n).toInt ≤ 2 ^ 62 := fun _ => zero
  have estimator : sampler.upperQuantile (1 / 200) = .ok 1 := quantile_thirty made (by norm_num) (by norm_num)
  have attempts : sampler.upperQuantile ((2 * (1 / 200)) ^ 2) = .ok 1 := quantile_thirty made (by norm_num) (by norm_num)
  have accurate : Tape.prob (fun tape : Fin (2 * sampler.trials * 3) → UInt64 => ∃ (outs : List (Option Nat))
      (h : ObliviousHistogram 1 1 1 4 Nat), runNew (math.withWords (Tape.stream tape)) 2 id ([] ++ ops) = .ok (outs, h) ∧
        Overlooked (fun _ => 0) h.trace) ≤ ((3 : Nat) : ℝ) * (1 / 200 + (2 * (1 / 200)) ^ 2) :=
    (checks_accurate (.inl rfl) routine start made rfl estimator attempts one one fits (Nat.le_refl _)).1
  exact_mod_cast accurate

end Checks
end Roga
