import Roga.Histogram.Lockstep

/-! The resize statistic has sensitivity one. -/
namespace Roga
open Ct Reals ObliviousStash ObliviousHistogram
variable {Z K A S : Nat} {V : Type} {math math' : ResizeMath}

/-- Operations over `keys` without manual growth. A deferred signal is consumed
by the growth it asks for. -/
def TreeOp.Tracked (prf : Aes128) (keys : List UInt8 → Prop) : TreeOp K V → Prop
  | .append key _ => keys key
  | .readTotal key => keys key
  | .appendBatch updates => KnownUpdates (keyed prf keys) updates
  | .grow => False
  | .takeDeferredSignal => False
  | _ => True

section Tracked
variable {prf : Aes128} {keys : List UInt8 → Prop} {x : List UInt8}

/-- Tracked operations insert known tags and payloads. -/
theorem TreeOp.Tracked.inserts {op : TreeOp K V} (tracked : op.Tracked prf keys) :
    ∀ id ∈ op.inserts prf, keyed prf keys id := by
  intro id hid
  cases op with
  | append key val =>
    obtain ⟨here, -⟩ := List.mem_filter.mp hid
    exact ⟨key, tracked, List.mem_singleton.mp here⟩
  | appendBatch updates =>
    obtain ⟨here, real⟩ := List.mem_filter.mp hid
    obtain ⟨u, hu, rfl⟩ := List.mem_map.mp here
    obtain ⟨hu, on⟩ := List.mem_filter.mp hu
    exact tracked u hu (by simpa using on) (by simpa using real)
  | _ => exact absurd hid List.not_mem_nil

theorem TreeOp.Tracked.mask {op : TreeOp K V} (tracked : op.Tracked prf keys) : (op.mask prf x).Tracked prf keys := by
  cases op with
  | append key val =>
    rw [TreeOp.mask]
    split
    · intro u hu on
      rw [List.mem_singleton.mp hu] at on
      simp at on
    · exact tracked
  | appendBatch updates => exact maskUpdate_known tracked
  | _ => exact tracked

end Tracked

namespace ObliviousHistogram
variable {h h' g g' : ObliviousHistogram Z K A S V} {prf : Aes128} {keys : List UInt8 → Prop}
  {x : List UInt8} [Add V] [Inhabited V]

omit [Inhabited V] in
/-- Operations that leave the counters alone. -/
theorem Lockstep.still (lock : Lockstep prf keys x h h') {t t' : List Event}
    (still : Still { h with trace := t } g) (still' : Still { h' with trace := t' } g')
    (silent : signalsOf t = signalsOf h.trace) (silent' : signalsOf t' = signalsOf h'.trace)
    (inv : g.Inv (keyed prf keys)) (inv' : g'.Inv (keyed prf keys)) (hprf : g.prf = h.prf)
    (hprf' : g'.prf = h'.prf)
    (masses : ∀ p ≠ copyPrefix K x, mass (forget V) p g'.contents = mass (forget V) p g.contents) :
    Coupled prf keys x h h' g g' := by
  refine .of_lockstep ⟨inv, inv', hprf.trans lock.prf_eq, hprf'.trans lock.prf_eq', ?_, ?_, ?_, ?_, ?_, masses,
    ?_⟩ (still.signals.trans silent) (still'.signals.trans silent')
  · rw [still'.height, still.height, lock.height]
  · rw [still'.epoch, still.epoch, lock.epoch]
  · rw [still'.appendCtr, still.appendCtr, lock.appendCtr]
  · rw [still'.evictCtr, still.evictCtr, lock.evictCtr]
  · rw [still'.sweepEnd, still.sweepEnd, lock.sweepEnd]
  · rw [still.autoResize, still'.autoResize, still.height, still.evictCtr]
    exact lock.auto

theorem Lockstep.read (sep : Separated prf K keys) (lock : Lockstep prf keys x h h') {key : List UInt8}
    (hkey : keys key) {v v' : V} (run : h.readTotal key = .ok (v, g)) (run' : h'.readTotal key = .ok (v', g')) :
    Coupled prf keys x h h' g g' := by
  rw [readTotal, lock.prf_eq] at run
  rw [readTotal, lock.prf_eq'] at run'
  have leaf : ∀ (height : Nat) (t : UInt64), keyed prf keys (t, copyPrefix K key) →
      toLeaf t height = toLeaf (prfTag prf key) height := fun height t known => by
    rw [sep.covers hkey known]
  obtain ⟨inv, hprf, -⟩ := readPreparedTotal_step lock.inv run
  obtain ⟨inv', hprf', -⟩ := readPreparedTotal_step lock.inv' run'
  refine lock.still (readPreparedTotal_still run) (readPreparedTotal_still run') rfl rfl inv inv' hprf hprf'
    fun p hp => ?_
  rw [readPreparedTotal_mass lock.inv (mass_rest lock.inv (leaf _)) run,
    readPreparedTotal_mass lock.inv' (mass_rest lock.inv' (leaf _)) run', lock.masses p hp]

theorem Lockstep.readDummy (lock : Lockstep prf keys x h h') {draw : Nat} (run : h.readDummy draw = .ok g)
    (run' : h'.readDummy draw = .ok g') : Coupled prf keys x h h' g g' := by
  have moves := readDummy_reshuffle run
  have moves' := readDummy_reshuffle run'
  refine lock.still (readDummy_still run) (readDummy_still run') rfl rfl (moves.inv lock.inv) (moves'.inv lock.inv')
    moves.prf moves'.prf fun p hp => ?_
  rw [moves.mass_eq lock.inv, moves'.mass_eq lock.inv', lock.masses p hp]

omit [Inhabited V] in
/-- Enabling auto-resize opens a window in both runs. -/
theorem Lockstep.configure (sameK : math'.rawK = math.rawK) (lock : Lockstep prf keys x h h')
    {cfg : AutoResizeConfig} {deferChecks emits : Bool}
    (run : h.configureAutoResize math cfg deferChecks emits = .ok g)
    (run' : h'.configureAutoResize math' cfg deferChecks emits = .ok g') : Coupled prf keys x h h' g g' := by
  obtain ⟨sampler, -, -, rfl⟩ := configureAutoResize_spec run
  obtain ⟨sampler', -, -, rfl⟩ := configureAutoResize_spec run'
  refine .of_lockstep ⟨lock.inv.congr rfl rfl rfl, lock.inv'.congr rfl rfl rfl, lock.prf_eq, lock.prf_eq',
    lock.height, lock.epoch, lock.appendCtr, lock.evictCtr, lock.sweepEnd, lock.masses, ?_⟩ rfl rfl
  have bounds := dpInitialK_bounds math (effectiveTCapacity Z cfg.tCapacity) (leafCount h.height) A
    (Nat.two_pow_pos h.height)
  refine .some ⟨rfl, ?_, rfl, rfl, rfl, rfl, bounds.1, bounds.2, fun _ => bounds.1, h.evictCtr, rfl,
    Nat.zero_le _, Nat.zero_le _⟩
  simp only [dpInitialK, sameK, lock.height]

/-- A forced growth of both trees. -/
theorem Lockstep.deferredGrow (sameK : math'.rawK = math.rawK) (lock : Lockstep prf keys x h h')
    {target target' : Nat} (run : h.applyDeferredAutoResizeGrow math target = .ok g)
    (run' : h'.applyDeferredAutoResizeGrow math' target' = .ok g') : Coupled prf keys x h h' g g' := by
  have moves := applyDeferredAutoResizeGrow_reshuffle run
  have moves' := applyDeferredAutoResizeGrow_reshuffle run'
  have grown := applyDeferredAutoResizeGrow_grown run
  have grown' := applyDeferredAutoResizeGrow_grown run'
  refine .of_lockstep ⟨moves.inv lock.inv, moves'.inv lock.inv', moves.prf.trans lock.prf_eq,
    moves'.prf.trans lock.prf_eq', ?_, ?_, ?_, ?_, ?_, fun p hp => ?_, ?_⟩ grown.signals grown'.signals
  · exact grown'.height.trans ((congrArg (· + 1) lock.height).trans grown.height.symm)
  · exact grown'.epoch.trans ((congrArg saturatingSucc lock.epoch).trans grown.epoch.symm)
  · exact grown'.appendCtr.trans (lock.appendCtr.trans grown.appendCtr.symm)
  · exact grown'.evictCtr.trans (lock.evictCtr.trans grown.evictCtr.symm)
  · exact grown'.sweepEnd.trans (.trans (by rw [lock.height, lock.evictCtr]) grown.sweepEnd.symm)
  · rw [moves.mass_eq lock.inv, moves'.mass_eq lock.inv', lock.masses p hp]
  · have auto := lock.auto
    rw [grown.autoResize, grown'.autoResize, grown.height]
    change Option.Rel _ ((h.autoResize.map AutoResizeState.resetCounters).map
        fun auto => auto.regrown math Z A (h.height + 1))
      ((h'.autoResize.map AutoResizeState.resetCounters).map
        fun auto => auto.regrown math' Z A (h'.height + 1))
    rw [lock.height]
    generalize h.autoResize = o at auto
    generalize h'.autoResize = o' at auto
    cases auto with
    | none => exact .none
    | @some a a' pair => exact .some (@Paired.grown Z A math math' sameK a.resetCounters a'.resetCounters
        pair.tCapacity pair.deferred pair.emitsGrowSignal rfl ⟨rfl, rfl⟩ ⟨rfl, rfl⟩ _ _ _)

omit [Add V] in
/-- A pending signal is consumed by the growth it asks for; without one nothing happens. -/
theorem handleDeferredResize_spec (run : h.handleDeferredResize math = .ok g) :
    ∃ auto, h.autoResize = some auto ∧
      (auto.pendingGrow = none ∧ g = h ∨
        ∃ target, auto.pendingGrow = some target ∧ h.applyDeferredAutoResizeGrow math target = .ok g) := by
  obtain ⟨⟨signal, m⟩, taken, run⟩ := bind_ok run
  obtain ⟨auto, before, -, -, rfl, rfl⟩ := takeDeferredAutoResizeSignal_spec taken
  refine ⟨auto, before, ?_⟩
  cases pending : auto.pendingGrow with
  | none =>
    rw [pending] at run
    simp only [pure, Except.pure, Except.ok.injEq] at run
    have same : { auto with pendingGrow := none } = auto := by rw [← pending]
    rw [same, ← before] at run
    exact .inl ⟨rfl, run.symm⟩
  | some target =>
    rw [pending] at run
    refine .inr ⟨target, rfl, ?_⟩
    have same : h.applyDeferredAutoResizeGrow math target =
        ({ h with autoResize := some { auto with pendingGrow := none } } :
          ObliviousHistogram Z K A S V).applyDeferredAutoResizeGrow math target := by
      simp only [applyDeferredAutoResizeGrow, before]
      rfl
    exact same.trans run

theorem Lockstep.handleDeferred (sameK : math'.rawK = math.rawK) (lock : Lockstep prf keys x h h')
    (run : h.handleDeferredResize math = .ok g) (run' : h'.handleDeferredResize math' = .ok g') :
    Coupled prf keys x h h' g g' := by
  obtain ⟨a, before, outcome⟩ := handleDeferredResize_spec run
  obtain ⟨a', before', outcome'⟩ := handleDeferredResize_spec run'
  have auto := lock.auto
  rw [before, before'] at auto
  have pending : a'.pendingGrow = a.pendingGrow := by
    cases auto with
    | some pair => exact pair.pendingGrow
  rcases outcome with ⟨quiet, rfl⟩ | ⟨target, fired, run⟩
  · rcases outcome' with ⟨-, rfl⟩ | ⟨target', fired', -⟩
    · exact .of_lockstep lock rfl rfl
    · rw [← pending, fired'] at quiet
      exact absurd quiet (by simp)
  · rcases outcome' with ⟨quiet', -⟩ | ⟨target', -, run'⟩
    · rw [pending, fired] at quiet'
      exact absurd quiet' (by simp)
    · exact lock.deferredGrow sameK run run'

/-- One operation of the first run and its masked form of the second. -/
theorem Lockstep.step (sameK : math'.rawK = math.rawK) (sep : Separated prf K keys) (hx : keys x)
    (lock : Lockstep prf keys x h h') {op : TreeOp K V} (tracked : op.Tracked prf keys) {out out' : Option V}
    (run : h.step math op = .ok (out, g)) (run' : h'.step math' (op.mask prf x) = .ok (out', g')) :
    Coupled prf keys x h h' g g' := by
  cases op with
  | append key val =>
    obtain ⟨r, hr, same⟩ := map_ok run
    obtain ⟨-, rfl⟩ := Prod.mk.inj same
    exact lock.append sameK sep hx tracked hr run'
  | appendBatch updates =>
    obtain ⟨r, hr, same⟩ := map_ok run
    obtain ⟨r', hr', same'⟩ := map_ok run'
    obtain ⟨-, rfl⟩ := Prod.mk.inj same
    obtain ⟨-, rfl⟩ := Prod.mk.inj same'
    exact lock.batch sameK sep hx tracked hr hr'
  | readTotal key =>
    obtain ⟨⟨v, r⟩, hr, run⟩ := bind_ok run
    obtain ⟨⟨v', r'⟩, hr', run'⟩ := bind_ok run'
    simp only [pure, Except.pure, Except.ok.injEq, Prod.mk.injEq] at run run'
    obtain ⟨-, rfl⟩ := run
    obtain ⟨-, rfl⟩ := run'
    exact lock.read sep tracked hr hr'
  | flush =>
    simp only [ObliviousHistogram.step, TreeOp.mask, Except.ok.injEq, Prod.mk.injEq] at run run'
    exact .of_lockstep (run.2 ▸ run'.2 ▸ lock) (run.2 ▸ rfl) (run'.2 ▸ rfl)
  | readDummy draw =>
    obtain ⟨r, hr, same⟩ := map_ok run
    obtain ⟨r', hr', same'⟩ := map_ok run'
    obtain ⟨-, rfl⟩ := Prod.mk.inj same
    obtain ⟨-, rfl⟩ := Prod.mk.inj same'
    exact lock.readDummy hr hr'
  | enableAutoResize cfg | enableDeferredAutoResize cfg emits =>
    obtain ⟨r, hr, same⟩ := map_ok run
    obtain ⟨r', hr', same'⟩ := map_ok run'
    obtain ⟨-, rfl⟩ := Prod.mk.inj same
    obtain ⟨-, rfl⟩ := Prod.mk.inj same'
    exact lock.configure sameK hr hr'
  | applyDeferredGrow target =>
    obtain ⟨r, hr, same⟩ := map_ok run
    obtain ⟨r', hr', same'⟩ := map_ok run'
    obtain ⟨-, rfl⟩ := Prod.mk.inj same
    obtain ⟨-, rfl⟩ := Prod.mk.inj same'
    exact lock.deferredGrow sameK hr hr'
  | handleDeferredResize =>
    obtain ⟨r, hr, same⟩ := map_ok run
    obtain ⟨r', hr', same'⟩ := map_ok run'
    obtain ⟨-, rfl⟩ := Prod.mk.inj same
    obtain ⟨-, rfl⟩ := Prod.mk.inj same'
    exact lock.handleDeferred sameK hr hr'
  | grow | takeDeferredSignal => exact tracked.elim

/-- Whole runs stay coupled. -/
theorem Lockstep.run (sameK : math'.rawK = math.rawK) (sep : Separated prf K keys) (hx : keys x)
    (lock : Lockstep prf keys x h h') {ops : List (TreeOp K V)} (tracked : ∀ op ∈ ops, op.Tracked prf keys)
    {outs outs' : List (Option V)} (run : h.run math ops = .ok (outs, g))
    (run' : h'.run math' (ops.map (TreeOp.mask prf x)) = .ok (outs', g')) : Coupled prf keys x h h' g g' := by
  induction ops generalizing h h' outs outs' with
  | nil =>
    simp only [ObliviousHistogram.run, List.map_nil, Except.ok.injEq, Prod.mk.injEq] at run run'
    exact .of_lockstep (run.2 ▸ run'.2 ▸ lock) (run.2 ▸ rfl) (run'.2 ▸ rfl)
  | cons op ops ih =>
    rw [List.map_cons] at run'
    obtain ⟨out, rest, m, hstep, hrun, -⟩ := run_cons run
    obtain ⟨out', rest', m', hstep', hrun', -⟩ := run_cons run'
    have later : ∀ op ∈ ops, op.Tracked prf keys := fun op hop => tracked op (.tail _ hop)
    have here := tracked op (.head _)
    obtain ⟨minv, mprf, -⟩ := step_inv lock.inv (fun id hid => TreeOp.Tracked.inserts here id (lock.prf_eq ▸ hid)) hstep
    obtain ⟨minv', mprf', -⟩ := step_inv lock.inv'
      (fun id hid => TreeOp.Tracked.inserts (TreeOp.Tracked.mask here) id (lock.prf_eq' ▸ hid)) hstep'
    refine (lock.step sameK sep hx here hstep hstep').trans (fun lock => ih lock later hrun hrun') ?_ ?_
    · exact (run_inv minv (fun op hop id hid => TreeOp.Tracked.inserts (later op hop) id (by
        rwa [mprf, lock.prf_eq] at hid)) hrun).2.2
    · refine (run_inv minv' (fun op hop id hid => ?_) hrun').2.2
      obtain ⟨o, ho, rfl⟩ := List.mem_map.mp hop
      exact TreeOp.Tracked.inserts (TreeOp.Tracked.mask (later o ho)) id (by rwa [mprf', lock.prf_eq'] at hid)

end ObliviousHistogram

/-- Masking out the insert slots of one key moves the statistic of each resize
check by at most one, as long as all earlier decisions coincide. -/
theorem resize_sensitivity [Add V] [Inhabited V] (sameK : math'.rawK = math.rawK) {cap : Nat} {prf : Aes128}
    {keys : List UInt8 → Prop} (sep : Separated prf K keys) {x : List UInt8} (hx : keys x)
    {ops : List (TreeOp K V)} (tracked : ∀ op ∈ ops, op.Tracked prf keys) {outs outs' : List (Option V)}
    {h h' : ObliviousHistogram Z K A S V} (run : runNew math cap prf ops = .ok (outs, h))
    (run' : runNew math' cap prf (ops.map (TreeOp.mask prf x)) = .ok (outs', h')) : Close h.calls h'.calls := by
  obtain ⟨h₀, start, run⟩ := bind_ok run
  obtain ⟨h₀', start', run'⟩ := bind_ok run'
  obtain rfl : h₀ = h₀' := Except.ok.inj (start.symm.trans start')
  obtain ⟨inv, -, hprf, trace, auto⟩ := new_spec start
  have lock : Lockstep prf keys x h₀ h₀ := ⟨inv, inv, hprf, hprf, rfl, rfl, rfl, rfl, rfl, fun _ _ => rfl, by
    rw [auto]
    exact .none⟩
  obtain ⟨s, s', calls, calls', close, -⟩ := lock.run sameK sep hx tracked run run'
  have fresh : h₀.calls = [] := by
    rw [ObliviousHistogram.calls, trace]
    rfl
  rwa [calls, calls', fresh]

theorem resize_sensitivity_two_keys :
    let ops := [TreeOp.enableAutoResize ⟨4, 1, 0.01, 7⟩, .append [1] 5, .append [2] 7, .append [1] 6]
    ∃ (outs outs' : List (Option Nat)) (h h' : ObliviousHistogram 1 1 1 4 Nat),
      runNew .constant 2 id ops = .ok (outs, h) ∧
      runNew .constant 2 id (ops.map (TreeOp.mask id [1])) = .ok (outs', h') ∧ Close h.calls h'.calls := by
  intro ops
  have run : (runNew .constant 2 id ops :
    Except Panic (List (Option Nat) × ObliviousHistogram 1 1 1 4 Nat)).toBool = true := by decide +kernel
  have run' : (runNew .constant 2 id (ops.map (TreeOp.mask id [1])) :
    Except Panic (List (Option Nat) × ObliviousHistogram 1 1 1 4 Nat)).toBool = true := by decide +kernel
  obtain ⟨⟨outs, h⟩, run⟩ := exists_of_toBool run
  obtain ⟨⟨outs', h'⟩, run'⟩ := exists_of_toBool run'
  exact ⟨outs, outs', h, h', run, run', resize_sensitivity rfl separated_pair (.inl rfl)
    (by simp [ops, TreeOp.Tracked]) run run'⟩

end Roga
