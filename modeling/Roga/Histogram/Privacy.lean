import Mathlib.Data.FinEnum
import Roga.Histogram.Budget
import Roga.Histogram.Interference

/-! Differential privacy of a tree that resizes itself. All that an observer of the memory
learns about one key is what the noisy resize checks tell of it. -/
namespace Roga
open Ct Reals ObliviousStash SparseVector ObliviousHistogram Literal
variable {Z K A S : Nat} {V : Type} {math math' : ResizeMath}

section Words

/-- The probability that a trial of `geometric_with` goes on. -/
noncomputable def CtDiscreteLaplace.ratio (sampler : CtDiscreteLaplace) : ℝ := sampler.failureCutoff.toNat / 2 ^ 48

theorem card_goesOn {sampler : CtDiscreteLaplace} (low : sampler.failureCutoff.toNat ≤ 2 ^ 48) :
    (Tape.lowWords sampler.goesOn).card = sampler.failureCutoff.toNat * 2 ^ 16 := by
  have below : ∀ word : UInt64, sampler.goesOn word = true ↔ word.toNat < sampler.failureCutoff.toNat * 2 ^ 16 := by
    intro word
    rw [CtDiscreteLaplace.goesOn, decide_eq_true_eq, UInt64.lt_iff_toNat_lt, UInt64.toNat_shiftRight]
    have shift : (64 - 48 : UInt64).toNat % 64 = 16 := rfl
    rw [shift, Nat.shiftRight_eq_div_pow, Nat.div_lt_iff_lt_mul (by decide)]
  rw [← Finset.card_range (sampler.failureCutoff.toNat * 2 ^ 16)]
  refine Finset.card_bij (fun word _ => word.toNat) (fun word hword => ?_) (fun a _ b _ same => UInt64.toNat_inj.mp same)
    fun n hn => ?_
  · rw [Finset.mem_range, ← below]
    exact (Finset.mem_filter.mp hword).2
  · have small := Finset.mem_range.mp hn
    have fits : n < 2 ^ 64 := by omega
    have back : (UInt64.ofNat n).toNat = n := by rw [UInt64.toNat_ofNat']; exact Nat.mod_eq_of_lt fits
    exact ⟨UInt64.ofNat n, Finset.mem_filter.mpr ⟨Finset.mem_univ _, (below _).mpr (by rwa [back])⟩, back⟩

theorem rate_goesOn {sampler : CtDiscreteLaplace} (low : sampler.failureCutoff.toNat ≤ 2 ^ 48) :
    Tape.rate sampler.goesOn = sampler.ratio := by
  have words : Fintype.card UInt64 = 2 ^ 48 * 2 ^ 16 := by
    rw [← FinEnum.card_eq_fintypeCard]
    rfl
  have scale : (2 ^ 16 : ℝ) ≠ 0 := pow_ne_zero 16 two_ne_zero
  rw [Tape.rate, card_goesOn low, words, CtDiscreteLaplace.ratio, Nat.cast_mul, Nat.cast_mul, Nat.cast_pow, Nat.cast_pow,
    Nat.cast_ofNat]
  exact mul_div_mul_right _ _ scale

end Words

section Marks

/-- The marked slots of a transcript. -/
theorem marks_transcript (marks : Nat → Bool) (h : ObliviousHistogram Z K A S V) :
    SparseVector.marks (h.transcript marks) = (List.range (slotsOf h.trace)).countP marks := by
  rw [transcript]
  induction h.trace with
  | nil => rfl
  | cons event trace ih =>
    rw [traceSteps, List.reverse_append, marks_append, ih]
    cases event with
    | slot =>
      rw [show slotsOf (.slot :: trace) = slotsOf trace + 1 from List.count_cons_self, List.range_succ,
        List.countP_append, Nat.add_left_cancel_iff]
      cases here : marks (slotsOf trace) <;> simp [Event.step, SparseVector.marks, here]
    | _ => rfl

theorem countP_getD (l : List Bool) : (List.range l.length).countP (fun i => l.getD i false) = l.count true := by
  have whole : (List.range l.length).map (fun i => l.getD i false) = l := by
    apply List.ext_getElem
    · rw [List.length_map, List.length_range]
    · intro i hi hi'
      rw [List.getElem_map, List.getElem_range, List.getD_eq_getElem _ _ hi']
  calc (List.range l.length).countP (fun i => l.getD i false)
      = ((List.range l.length).map fun i => l.getD i false).countP (· == true) := by
        rw [List.countP_map]
        exact List.countP_congr fun i _ => by simp
    _ = l.count true := by rw [whole, List.count]

theorem count_firsts (present : Bool) (slots : List Bool) :
    (firsts present slots).count true = if slots.any id = true ∧ present = false then 1 else 0 := by
  induction slots generalizing present with
  | nil => simp [firsts]
  | cons stored slots ih =>
    rw [firsts, List.count_cons, ih]
    cases stored <;> cases present <;> simp

theorem length_arrivals (x : List UInt8) (present : Bool) (ops : List (TreeOp K V)) :
    (arrivals x present ops).length = (ops.map TreeOp.slots).sum := by
  induction ops generalizing present with
  | nil => rfl
  | cons op ops ih =>
    rw [arrivals, List.length_append, length_firsts, length_stores, ih, List.map_cons, List.sum_cons]

/-- Between two arrivals of the key lies a read of it. -/
theorem count_arrivals (x : List UInt8) (present : Bool) (ops : List (TreeOp K V)) :
    (arrivals x present ops).count true ≤ (if present then 0 else 1) + ops.countP (TreeOp.reads x) := by
  induction ops generalizing present with
  | nil => exact Nat.zero_le _
  | cons op ops ih =>
    have rest := ih (op.leaves x present)
    rw [arrivals, List.count_append, count_firsts, List.countP_cons]
    have other : op.reads x = false → op.leaves x present = (present || (op.stores x).any id) →
        (if (op.stores x).any id = true ∧ present = false then 1 else 0) + (arrivals x (op.leaves x present) ops).count true ≤
          (if present then 0 else 1) + (ops.countP (TreeOp.reads x) + if op.reads x = true then 1 else 0) := by
      intro quiet leaves
      rw [leaves] at rest ⊢
      rw [quiet]
      generalize (op.stores x).any id = stored at rest ⊢
      cases present <;> cases stored <;> simp at rest ⊢ <;> omega
    cases op with
    | readTotal key =>
      by_cases same : key = x
      · have reads : (TreeOp.readTotal key : TreeOp K V).reads x = true := decide_eq_true same
        have gone : (TreeOp.readTotal key : TreeOp K V).leaves x present = false := by
          rw [TreeOp.leaves, decide_eq_false (not_not.mpr same), Bool.and_false]
        rw [gone, if_neg Bool.false_ne_true] at rest
        have nothing : (TreeOp.readTotal key : TreeOp K V).stores x = [] := rfl
        rw [gone, reads, if_pos rfl, nothing, List.any_nil, if_neg (by simp)]
        omega
      · refine other (decide_eq_false same) ?_
        rw [TreeOp.leaves, decide_eq_true same, Bool.and_true]
        exact (Bool.or_false _).symm
    | append | appendBatch | readDummy | flush | grow | enableAutoResize | enableDeferredAutoResize | takeDeferredSignal
    | applyDeferredGrow | handleDeferredResize => exact other rfl rfl

theorem arrivals_append (x : List UInt8) (present : Bool) (ops ops' : List (TreeOp K V)) :
    arrivals x present (ops ++ ops') =
      arrivals x present ops ++ arrivals x (ops.foldl (fun present op => op.leaves x present) present) ops' := by
  induction ops generalizing present with
  | nil => rfl
  | cons op ops ih => rw [List.cons_append, arrivals, ih, arrivals, List.append_assoc, List.foldl_cons]

/-- How often noise is drawn does not depend on the marks. -/
theorem countP_draws_transcript (marks : Nat → Bool) (h : ObliviousHistogram Z K A S V) :
    (h.transcript marks).countP Step.draws = h.drawn := by
  rw [drawn, transcript, transcript, List.countP_reverse, List.countP_reverse]
  induction h.trace with
  | nil => rfl
  | cons event trace ih =>
    rw [traceSteps, traceSteps, List.countP_append, List.countP_append, ih]
    cases event <;> rfl

end Marks

section Enables
variable {cfg : AutoResizeConfig} {op : TreeOp K V}

theorem TreeOp.Enables.step [Add V] [Inhabited V] (enables : op.Enables cfg) : ∃ deferChecks, ∀ (math : ResizeMath)
    (h g : ObliviousHistogram Z K A S V) (out : Option V), h.step math op = .ok (out, g) →
      h.configureAutoResize math cfg deferChecks true = .ok g := by
  rcases enables with rfl | rfl
  · refine ⟨false, fun math h g out run => ?_⟩
    obtain ⟨r, hr, same⟩ := map_ok run
    obtain ⟨-, rfl⟩ := Prod.mk.inj same
    exact hr
  · refine ⟨true, fun math h g out run => ?_⟩
    obtain ⟨r, hr, same⟩ := map_ok run
    obtain ⟨-, rfl⟩ := Prod.mk.inj same
    exact hr

theorem TreeOp.Enables.mask_eq (enables : op.Enables cfg) (prf : Aes128) (x : List UInt8) : op.mask prf x = op := by
  rcases enables with rfl | rfl <;> rfl

theorem TreeOp.Enables.slots_eq (enables : op.Enables cfg) : op.slots = 0 := by
  rcases enables with rfl | rfl <;> rfl

theorem TreeOp.Enables.arrivals_eq (enables : op.Enables cfg) (x : List UInt8) (present : Bool) (ops : List (TreeOp K V)) :
    arrivals x present (op :: ops) = arrivals x present ops := by
  rcases enables with rfl | rfl <;> cases present <;> rfl

end Enables

namespace ObliviousHistogram
variable [Add V] [Inhabited V] {h g g' : ObliviousHistogram Z K A S V} {words words' : Nat → UInt64}
  {cfg : AutoResizeConfig} {sampler : CtDiscreteLaplace} {cap height : Nat} {prf : Aes128} {keys : List UInt8 → Prop}
  {x : List UInt8} {marks : Nat → Bool} {before after : List (TreeOp K V)} {enable : TreeOp K V}
  {outs outs' : List (Option V)}

theorem run_split {ops ops' : List (TreeOp K V)} (run : h.run math (ops ++ ops') = .ok (outs, g)) :
    ∃ outs' m outs'', h.run math ops = .ok (outs', m) ∧ m.run math ops' = .ok (outs'', g) := by
  induction ops generalizing h outs with
  | nil => exact ⟨[], h, outs, rfl, run⟩
  | cons op ops ih =>
    obtain ⟨out, rest, w, hstep, hrun, -⟩ := run_cons run
    obtain ⟨outs', m, outs'', first, second⟩ := ih hrun
    refine ⟨out :: outs', m, outs'', ?_, second⟩
    rw [ObliviousHistogram.run, hstep]
    change (w.run math ops >>= fun r => pure (out :: r.1, r.2)) = _
    rw [first]
    rfl

theorem run_slots (inv : h.Inv fun _ => True) {ops : List (TreeOp K V)} (routine : ∀ op ∈ ops, op.Routine)
    (run : h.run math ops = .ok (outs, g)) : slotsOf g.trace = slotsOf h.trace + (ops.map TreeOp.slots).sum := by
  induction ops generalizing h outs with
  | nil =>
    simp only [ObliviousHistogram.run, Except.ok.injEq, Prod.mk.injEq] at run
    rw [run.2]
    rfl
  | cons op ops ih =>
    obtain ⟨out, rest, m, hstep, hrun, -⟩ := run_cons run
    have first := step_slots inv (routine op (.head _)) hstep
    have later := ih (step_inv inv (fun _ _ => trivial) hstep).1 (fun op hop => routine op (.tail _ hop)) hrun
    rw [later, first, List.map_cons, List.sum_cons, Nat.add_assoc]

/-- A run of a new tree that switches auto-resize on, in its three parts. -/
theorem runNew_split (start : treeHeightForCapacity cap Z = .ok height)
    (run : (runNew math cap prf (before ++ enable :: after) : Except Panic (List (Option V) × ObliviousHistogram Z K A S V)) =
      .ok (outs, g)) : ∃ (h₀ m w : ObliviousHistogram Z K A S V) (s t : List (Option V)) (out : Option V),
      new cap prf = .ok h₀ ∧ h₀.height = height ∧ h₀.run math before = .ok (s, m) ∧ m.step math enable = .ok (out, w) ∧
        w.run math after = .ok (t, g) := by
  obtain ⟨h₀, made, run⟩ := bind_ok run
  obtain ⟨s, m, rest, first, run⟩ := run_split run
  obtain ⟨out, t, w, step, last, -⟩ := run_cons run
  refine ⟨h₀, m, w, s, t, out, made, ?_, first, step, last⟩
  rw [new, start] at made
  exact (congrArg ObliviousHistogram.height (Except.ok.inj made)).symm

/-- Routine operations leave auto-resize off. -/
theorem run_off (inv : h.Inv fun _ => True) {ops : List (TreeOp K V)} (routine : ∀ op ∈ ops, op.Routine)
    (run : h.run math ops = .ok (outs, g)) (off : h.autoResize = none) : g.autoResize = none := by
  have duty := (Funded.run inv routine run).duty
  rw [ObliviousHistogram.duty, ObliviousHistogram.duty, off, Option.map_none] at duty
  exact Option.map_eq_none_iff.mp duty

/-- The transcript of a run is one of the noisy mechanism. -/
theorem answers_of_run (unwrapped : Unwrapped math Z A cfg height sampler) (source : math.newSampler cfg.eps = .ok sampler)
    (start : treeHeightForCapacity cap Z = .ok height) (enables : enable.Enables cfg)
    (routine : ∀ op ∈ before ++ after, op.Routine)
    (run : (runNew (math.withWords words) cap prf (before ++ enable :: after) :
      Except Panic (List (Option V) × ObliviousHistogram Z K A S V)) = .ok (outs, g)) :
    Answers (thresholdAfter math Z A cfg height sampler) (sampler.draw words)
      (Meter.start (thresholdAfter math Z A cfg height sampler) (sampler.draw words)) (g.transcript marks) := by
  obtain ⟨h₀, m, w, s, t, out, made, level, first, step, last⟩ := runNew_split start run
  obtain ⟨deferChecks, configures⟩ := enables.step
  have configured := configures _ _ _ _ step
  obtain ⟨inv, -, -, trace, auto⟩ : h₀.Inv (fun _ => True) ∧ _ := new_spec made
  have earlier : ∀ op ∈ before, op.Routine := fun op hop => routine op (List.mem_append_left _ hop)
  have later : ∀ op ∈ after, op.Routine := fun op hop => routine op (List.mem_append_right _ hop)
  have metered : Metered math words cfg sampler height
      (Meter.start (thresholdAfter math Z A cfg height sampler) (sampler.draw words)) h₀ :=
    ⟨level, fun _ => rfl, fun a on => absurd (auto.symm.trans on) (Option.some_ne_none _).symm⟩
  have minv := (run_inv inv (fun _ _ _ _ => trivial) first).1
  have winv := (configureAutoResize_reshuffle configured).inv minv
  have metering : Metering math words cfg sampler height marks _ h₀ g := ((metered.run unwrapped inv earlier first).trans
    fun _ metered => metered.configure unwrapped source (run_off inv earlier first auto) configured).trans
    fun _ metered => metered.run unwrapped winv later last
  obtain ⟨steps, slots, shows, answers, -⟩ := metering
  have fresh : h₀.transcript marks = [] := by
    rw [transcript, trace]
    rfl
  rw [shows.transcript, fresh]
  exact answers

theorem new_tandem {h₀ : ObliviousHistogram Z K A S V} (made : new cap prf = .ok h₀) :
    Tandem prf keys x .level false h₀ h₀ := by
  obtain ⟨inv, empty, hprf, trace, auto⟩ : h₀.Inv (keyed prf keys) ∧ _ := new_spec made
  have lock : Lockstep prf keys x h₀ h₀ := ⟨inv, inv, hprf, hprf, rfl, rfl, rfl, rfl, rfl, fun _ _ => rfl, by
    rw [auto]
    exact .none⟩
  have none : h₀.oldest (copyPrefix K x) = none := by
    rw [oldest, empty]
    rfl
  have epoch : h₀.epoch = 0 := by
    obtain ⟨height, -, made⟩ := bind_ok made
    exact (congrArg ObliviousHistogram.epoch (Except.ok.inj made)).symm
  have off : ∀ a, h₀.autoResize ≠ some a := fun a on => absurd (auto.symm.trans on) (Option.some_ne_none _).symm
  refine ⟨lock, rfl, fun _ a _ on _ => absurd on (off a), fun _ => ?_, ?_, none, fun e he => ?_, ?_,
    fun a on => absurd on (off a), fun a on => absurd on (off a), fun _ => by decide⟩
  · rw [none]
    exact (Option.some_ne_none _).symm
  · rw [none]
    simp
  · exact absurd (he.symm.trans none) (Option.some_ne_none _)
  · rw [epoch]
    exact Nat.zero_le _

omit [Add V] [Inhabited V] in
theorem configureAutoResize_quiet {deferChecks emits : Bool} (run : h.configureAutoResize math cfg deferChecks emits = .ok g) :
    g.trace = h.trace ∧ g.owed = 0 := by
  obtain ⟨source, -, -, rfl⟩ := configureAutoResize_spec run
  exact ⟨rfl, rfl⟩

/-- The transcripts of a run and of its masked form drift apart by the marked slots only. -/
theorem drift_of_runs (sameK : math'.rawK = math.rawK) (sep : Separated prf K keys) (hx : keys x)
    (start : treeHeightForCapacity cap Z = .ok height) (enables : enable.Enables cfg)
    (routine : ∀ op ∈ before ++ after, op.Routine) (tracked : ∀ op ∈ before ++ after, op.Tracked prf keys)
    (run : (runNew math cap prf (before ++ enable :: after) :
      Except Panic (List (Option V) × ObliviousHistogram Z K A S V)) = .ok (outs, g))
    (run' : (runNew math' cap prf ((before ++ enable :: after).map (TreeOp.mask prf x)) :
      Except Panic (List (Option V) × ObliviousHistogram Z K A S V)) = .ok (outs', g'))
    (marks : Nat → Bool) (marked : Marked marks 0 (arrivals x false (before ++ enable :: after))) :
    Drift .level (g.transcript marks) (g'.transcript marks) := by
  rw [List.map_append, List.map_cons, enables.mask_eq] at run'
  obtain ⟨h₀, m, w, s, t, out, made, -, first, step, last⟩ := runNew_split start run
  obtain ⟨h₀', m', w', s', t', out', made', -, first', step', last'⟩ := runNew_split start run'
  obtain rfl : h₀ = h₀' := Except.ok.inj (made.symm.trans made')
  obtain ⟨deferChecks, configures⟩ := enables.step
  have configured := configures _ _ _ _ step
  have configured' := configures _ _ _ _ step'
  obtain ⟨inv, -, -, trace, auto⟩ : h₀.Inv (fun _ => True) ∧ _ := new_spec made
  have earlier : ∀ op ∈ before, op.Routine := fun op hop => routine op (List.mem_append_left _ hop)
  have later : ∀ op ∈ after, op.Routine := fun op hop => routine op (List.mem_append_right _ hop)
  have minv := (run_inv inv (fun _ _ _ _ => trivial) first).1
  have minv' := (run_inv inv (fun _ _ _ _ => trivial) first').1
  have moves := configureAutoResize_reshuffle configured
  have moves' := configureAutoResize_reshuffle configured'
  have suffix := (run_inv (moves.inv minv) (fun _ _ _ _ => trivial) last).2.2
  have suffix' := (run_inv (moves'.inv minv') (fun _ _ _ _ => trivial) last').2.2
  rw [arrivals_append, enables.arrivals_eq] at marked
  obtain ⟨ahead, behind⟩ := marked.split
  have fresh : slotsOf h₀.trace = 0 := by
    rw [trace]
    rfl
  have slots : slotsOf w.trace = 0 + (arrivals x false before).length := by
    rw [(configureAutoResize_quiet configured).1, run_slots inv earlier first, length_arrivals, fresh]
  obtain ⟨u, u', i, i', shows, shows', drift, -⟩ : Drifted prf keys x marks .level _ h₀ h₀ g g' :=
    (new_tandem made).run sameK sep hx (fun op hop => tracked op (List.mem_append_left _ hop)) earlier
      (fresh.symm ▸ ahead) first first' |>.trans (fun phase tandem =>
        (tandem.configure sameK (run_off inv earlier first auto) configured configured').trans (fun phase tandem =>
          tandem.run sameK sep hx (fun op hop => tracked op (List.mem_append_right _ hop)) later (slots.symm ▸ behind) last
            last') suffix suffix') (moves.trace.trans suffix) (moves'.trace.trans suffix')
  have nothing : h₀.transcript marks = [] := by
    rw [transcript, trace]
    rfl
  rw [shows.transcript, shows'.transcript, nothing]
  exact drift

/-- The draws and the marked slots of a run. -/
theorem counts_of_run (start : treeHeightForCapacity cap Z = .ok height) (enables : enable.Enables cfg)
    (routine : ∀ op ∈ before ++ after, op.Routine)
    (run : (runNew math cap prf (before ++ enable :: after) :
      Except Panic (List (Option V) × ObliviousHistogram Z K A S V)) = .ok (outs, g)) :
    slotsOf g.trace = ((before ++ enable :: after).map TreeOp.slots).sum ∧
      g.drawn ≤ 2 * ((before ++ enable :: after).map TreeOp.slots).sum := by
  obtain ⟨h₀, m, w, s, t, out, made, -, first, step, last⟩ := runNew_split start run
  obtain ⟨deferChecks, configures⟩ := enables.step
  have configured := configures _ _ _ _ step
  obtain ⟨inv, -, -, trace, auto⟩ : h₀.Inv (fun _ => True) ∧ _ := new_spec made
  have earlier : ∀ op ∈ before, op.Routine := fun op hop => routine op (List.mem_append_left _ hop)
  have later : ∀ op ∈ after, op.Routine := fun op hop => routine op (List.mem_append_right _ hop)
  have minv := (run_inv inv (fun _ _ _ _ => trivial) first).1
  have winv := (configureAutoResize_reshuffle configured).inv minv
  obtain ⟨same, paid⟩ := configureAutoResize_quiet configured
  have funded := Funded.run inv earlier first
  have funded' := Funded.run winv later last
  have slots := run_slots inv earlier first
  have slots' := run_slots winv later last
  have drawn : w.drawn = m.drawn := by
    rw [ObliviousHistogram.drawn, transcript, same, ← transcript, ← ObliviousHistogram.drawn]
  have fresh : slotsOf h₀.trace = 0 ∧ h₀.drawn = 0 := by
    rw [ObliviousHistogram.drawn, transcript, trace]
    exact ⟨rfl, rfl⟩
  have off : h₀.owed = 0 := by
    rw [ObliviousHistogram.owed, auto]
    rfl
  have draws := funded.draws
  have draws' := funded'.draws
  have total : ((before ++ enable :: after).map TreeOp.slots).sum =
      (before.map TreeOp.slots).sum + (after.map TreeOp.slots).sum := by
    rw [List.map_append, List.sum_append, List.map_cons, List.sum_cons, enables.slots_eq, Nat.zero_add]
  rw [same] at slots' draws'
  constructor
  · omega
  · omega

end ObliviousHistogram

section View
variable [Add V] [Inhabited V] {M : Nat}

/-- What an observer of the memory sees of a run of a new tree whose noise is read off a tape. -/
def viewOn (Z K A S : Nat) (math : ResizeMath) (cap : Nat) (prf : Aes128) (ops : List (TreeOp K V))
    (tape : Fin M → UInt64) : Option (List PublicEvent) :=
  (runNew (math.withWords (Tape.stream tape)) cap prf ops :
    Except Panic (List (Option V) × ObliviousHistogram Z K A S V)).toOption.map fun r => publicOf r.2.trace

/-- The transcript of such a run. -/
def transcriptOn (Z K A S : Nat) (math : ResizeMath) (cap : Nat) (prf : Aes128) (ops : List (TreeOp K V))
    (marks : Nat → Bool) (tape : Fin M → UInt64) : List (Step PublicEvent) :=
  ((runNew (math.withWords (Tape.stream tape)) cap prf ops :
    Except Panic (List (Option V) × ObliviousHistogram Z K A S V)).toOption.map fun r => r.2.transcript marks).getD []

variable {cfg : AutoResizeConfig} {sampler : CtDiscreteLaplace} {cap height : Nat} {prf : Aes128}
  {keys : List UInt8 → Prop} {x : List UInt8} {marks : Nat → Bool} {ops before after : List (TreeOp K V)}
  {enable : TreeOp K V} {tape : Fin M → UInt64}

theorem viewOn_returns (marks : Nat → Bool) (returns : viewOn Z K A S math cap prf ops tape ≠ none) :
    ∃ (outs : List (Option V)) (h : ObliviousHistogram Z K A S V),
      runNew (math.withWords (Tape.stream tape)) cap prf ops = .ok (outs, h) ∧
        transcriptOn Z K A S math cap prf ops marks tape = h.transcript marks ∧
        viewOn Z K A S math cap prf ops tape =
          some (((h.transcript marks).map Step.seen).reverse.filterMap publicStep) := by
  rw [viewOn] at returns
  cases run : (runNew (math.withWords (Tape.stream tape)) cap prf ops :
      Except Panic (List (Option V) × ObliviousHistogram Z K A S V)) with
  | error e =>
    rw [run] at returns
    exact absurd rfl returns
  | ok r =>
    refine ⟨r.1, r.2, rfl, ?_, ?_⟩
    · rw [transcriptOn, run]
      rfl
    · have seen : publicStep ∘ Step.seen = publicStep := funext publicStep_seen
      rw [viewOn, run, transcript, List.map_reverse, List.reverse_reverse, List.filterMap_map, seen]
      exact congrArg some (publicOf_steps marks r.2.trace)

/-- The view is what the transcript shows. -/
theorem viewOn_eq (marks : Nat → Bool) (returns : viewOn Z K A S math cap prf ops tape ≠ none) :
    viewOn Z K A S math cap prf ops tape =
      some (((transcriptOn Z K A S math cap prf ops marks tape).map Step.seen).reverse.filterMap publicStep) := by
  obtain ⟨outs, h, -, transcript, view⟩ := viewOn_returns marks returns
  rw [view, transcript]

omit [Add V] [Inhabited V] in
theorem TreeOp.slots_mask (prf : Aes128) (x : List UInt8) (op : TreeOp K V) : (op.mask prf x).slots = op.slots := by
  cases op with
  | append key val =>
    rw [TreeOp.mask]
    split <;> rfl
  | appendBatch updates => exact List.length_map _
  | _ => rfl

omit [Add V] [Inhabited V] in
theorem TreeOp.Routine.mask {op : TreeOp K V} (routine : op.Routine) (prf : Aes128) (x : List UInt8) :
    (op.mask prf x).Routine := by
  cases op with
  | append key val =>
    rw [TreeOp.mask]
    split <;> trivial
  | _ => exact routine

omit [Add V] [Inhabited V] in
theorem sum_slots_mask (prf : Aes128) (x : List UInt8) (ops : List (TreeOp K V)) :
    ((ops.map (TreeOp.mask prf x)).map TreeOp.slots).sum = (ops.map TreeOp.slots).sum := by
  rw [List.map_map]
  congr 2
  funext op
  exact TreeOp.slots_mask prf x op

/-- A mechanism that answers with the noise of its tape. -/
theorem noisy_transcriptOn (unwrapped : Unwrapped math Z A cfg height sampler)
    (source : math.newSampler cfg.eps = .ok sampler) (start : treeHeightForCapacity cap Z = .ok height)
    (enables : enable.Enables cfg) (routine : ∀ op ∈ before ++ after, op.Routine)
    (returns : ∀ tape : Fin M → UInt64, viewOn Z K A S math cap prf (before ++ enable :: after) tape ≠ none) :
    Noisy sampler.goesOn sampler.trials (thresholdAfter math Z A cfg height sampler) fun tape : Fin M → UInt64 =>
      transcriptOn Z K A S math cap prf (before ++ enable :: after) marks tape := by
  intro tape
  obtain ⟨outs, h, run, transcript, -⟩ := viewOn_returns marks (returns tape)
  simp only [transcript]
  exact answers_of_run unwrapped source start enables routine run

/-- Few draws, and a marked slot for the first update of the key and for each of its reads at most. -/
theorem counts_transcriptOn (start : treeHeightForCapacity cap Z = .ok height) (enables : enable.Enables cfg)
    (routine : ∀ op ∈ before ++ after, op.Routine) {slots : List Bool}
    (length : slots.length = ((before ++ enable :: after).map TreeOp.slots).sum)
    (returns : viewOn Z K A S math cap prf (before ++ enable :: after) tape ≠ none) :
    let t := transcriptOn Z K A S math cap prf (before ++ enable :: after) (fun n => slots.getD n false) tape
    (amounts .level t).length < 2 * slots.length + 1 ∧ SparseVector.marks t = slots.count true := by
  intro t
  obtain ⟨outs, h, run, transcript, -⟩ := viewOn_returns (fun n => slots.getD n false) returns
  obtain ⟨total, drawn⟩ := counts_of_run start enables routine run
  rw [show t = h.transcript fun n => slots.getD n false from transcript]
  constructor
  · rw [length_amounts, countP_draws_transcript, length]
    omega
  · rw [marks_transcript, total, ← length, countP_getD]

end View

/-- What an observer of the memory sees of a run hardly depends on whether the insert slots of one
key store it or are masked out: the views are indistinguishable, by a factor for the first update of the
key and for each read after which it comes back, and up to a slack for the draws that reach their cap. -/
theorem view_indistinguishable [Add V] [Inhabited V] {cfg : AutoResizeConfig} {sampler : CtDiscreteLaplace} {cap height M : Nat}
    {prf : Aes128} {keys : List UInt8 → Prop} (sep : Separated prf K keys) {x : List UInt8} (hx : keys x)
    {before after : List (TreeOp K V)} {enable : TreeOp K V} (enables : enable.Enables cfg)
    (routine : ∀ op ∈ before ++ after, op.Routine) (tracked : ∀ op ∈ before ++ after, op.Tracked prf keys)
    (start : treeHeightForCapacity cap Z = .ok height) (unwrapped : Unwrapped math Z A cfg height sampler)
    (source : math.newSampler cfg.eps = .ok sampler) (some : 0 < sampler.trials) (cutoff : 0 < sampler.failureCutoff.toNat)
    (low : sampler.failureCutoff.toNat ≤ 2 ^ 48) :
    let ops := before ++ enable :: after
    let draws := 2 * (ops.map TreeOp.slots).sum + 1
    2 * sampler.trials * draws ≤ M →
    (∀ tape : Fin M → UInt64, viewOn Z K A S math cap prf ops tape ≠ none) →
    (∀ tape : Fin M → UInt64, viewOn Z K A S math cap prf (ops.map (TreeOp.mask prf x)) tape ≠ none) →
    Tape.Indistinguishable (sampler.ratio⁻¹ ^ (3 * (1 + ops.countP (TreeOp.reads x))))
      (draws * sampler.ratio ^ (sampler.trials - 1))
      (fun tape : Fin M → UInt64 => viewOn Z K A S math cap prf ops tape)
      fun tape => viewOn Z K A S math cap prf (ops.map (TreeOp.mask prf x)) tape := by
  intro ops draws room returns returns'
  let slots := arrivals x false ops
  have length : slots.length = (ops.map TreeOp.slots).sum := length_arrivals x false ops
  have masked : ops.map (TreeOp.mask prf x) =
      before.map (TreeOp.mask prf x) ++ enable :: after.map (TreeOp.mask prf x) := by
    rw [List.map_append, List.map_cons, enables.mask_eq]
  have routine' : ∀ op ∈ before.map (TreeOp.mask prf x) ++ after.map (TreeOp.mask prf x), op.Routine := by
    rw [← List.map_append]
    intro op hop
    obtain ⟨inner, here, rfl⟩ := List.mem_map.mp hop
    exact (routine inner here).mask prf x
  have length' : slots.length = ((ops.map (TreeOp.mask prf x)).map TreeOp.slots).sum := by
    rw [sum_slots_mask, length]
  rw [masked] at length'
  let t (tape : Fin M → UInt64) := transcriptOn Z K A S math cap prf ops (fun n => slots.getD n false) tape
  let t' (tape : Fin M → UInt64) := transcriptOn Z K A S math cap prf
    (before.map (TreeOp.mask prf x) ++ enable :: after.map (TreeOp.mask prf x)) (fun n => slots.getD n false) tape
  have few : slots.count true ≤ 1 + ops.countP (TreeOp.reads x) := count_arrivals x false ops
  have counts := fun tape => counts_transcriptOn start enables routine length (returns tape)
  have counts' := fun tape => counts_transcriptOn start enables routine' length' (masked ▸ returns' tape)
  have drift : ∀ tape tape', Drift .level (t tape) (t' tape') := by
    intro tape tape'
    obtain ⟨outs, h, run, transcript, -⟩ := viewOn_returns (fun n => slots.getD n false) (returns tape)
    obtain ⟨outs', h', run', transcript', -⟩ := viewOn_returns (fun n => slots.getD n false) (returns' tape')
    rw [masked] at transcript'
    rw [show t tape = _ from transcript, show t' tape' = _ from transcript']
    have sameK : (math.withWords (Tape.stream tape')).rawK = (math.withWords (Tape.stream tape)).rawK := rfl
    refine drift_of_runs sameK sep hx start enables routine tracked run run' _ ?_
    intro i hi
    rw [Nat.zero_add]
  have close : Tape.Indistinguishable _ _ (fun tape => (t tape).map Step.seen) fun tape => (t' tape).map Step.seen :=
    indistinguishable some (noisy_transcriptOn unwrapped source start enables routine returns)
      (noisy_transcriptOn unwrapped source start enables routine' (masked ▸ returns')) drift
      (fun tape => (counts tape).1) (fun tape => (counts' tape).1) (length.symm ▸ room)
      (fun tape => (counts tape).2.trans_le few) (fun tape => (counts' tape).2.trans_le few) (by
        rw [rate_goesOn low]
        exact div_pos (Nat.cast_pos.mpr cutoff) (by positivity))
  rw [rate_goesOn low] at close
  have view : (fun tape : Fin M → UInt64 => viewOn Z K A S math cap prf ops tape) =
      fun tape => Option.some (((t tape).map Step.seen).reverse.filterMap publicStep) := by
    funext tape
    exact viewOn_eq _ (returns tape)
  have view' : (fun tape : Fin M → UInt64 => viewOn Z K A S math cap prf (ops.map (TreeOp.mask prf x)) tape) =
      fun tape => Option.some (((t' tape).map Step.seen).reverse.filterMap publicStep) := by
    funext tape
    rw [viewOn_eq (fun n => slots.getD n false) (returns' tape), masked]
  rw [view, view']
  have shown := close.map fun v => Option.some (v.reverse.filterMap publicStep)
  rw [length] at shown
  exact_mod_cast shown

theorem viewOn_ne_none [Add V] [Inhabited V] {cap M : Nat} {prf : Aes128} {ops : List (TreeOp K V)}
    {tape : Fin M → UInt64} (run : ∃ (outs : List (Option V)) (h : ObliviousHistogram Z K A S V),
      runNew (math.withWords (Tape.stream tape)) cap prf ops = .ok (outs, h)) :
    viewOn Z K A S math cap prf ops tape ≠ none := by
  obtain ⟨outs, h, run⟩ := run
  rw [viewOn, run]
  exact Option.some_ne_none _

end Roga
