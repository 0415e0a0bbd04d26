import Roga.Histogram.Accounting

/-! Evictions and insertions of two trees that differ in the insert slots of one
key. The trees stay in lockstep as long as their resize decisions coincide. -/
namespace Roga
open Ct Reals ObliviousStash ObliviousHistogram
variable {Z K A S : Nat} {V : Type} {math math' : ResizeMath}

/-- The slots of one payload are masked out. -/
def maskUpdate (p : Vector UInt8 K) (u : PreparedUpdate K V) : PreparedUpdate K V :=
  if u.2.2.1 = p then (u.1, u.2.1, u.2.2.1, 0) else u

/-- The operation with the insert slots of `x` masked out. -/
def TreeOp.mask (prf : Aes128) (x : List UInt8) : TreeOp K V → TreeOp K V
  | .append key val =>
    if key = x then .appendBatch [(prfTag prf key, val, copyPrefix K key, 0)] else .append key val
  | .appendBatch updates => .appendBatch (updates.map (maskUpdate (copyPrefix K x)))
  | op => op

/-- As long as the decisions coincide the statistics differ by at most one. -/
def Close : List (Nat × Option Nat) → List (Nat × Option Nat) → Prop
  | [], [] => True
  | (c, r) :: s, (c', r') :: s' => (c ≤ c' + 1 ∧ c' ≤ c + 1) ∧ (r = r' → Close s s')
  | _, _ => False

theorem Close.append {s s' t t' : List (Nat × Option Nat)} (close : Close s s')
    (more : s.map Prod.snd = s'.map Prod.snd → Close t t') : Close (s ++ t) (s' ++ t') := by
  induction s generalizing s' with
  | nil =>
    cases s' with
    | nil => exact more rfl
    | cons => exact close.elim
  | cons c s ih =>
    cases s' with
    | nil => exact close.elim
    | cons c' s' =>
      refine ⟨close.1, fun same => ih (close.2 same) fun rest => more ?_⟩
      rw [List.map_cons, List.map_cons, same, rest]

theorem Close.decisions {s s' t t' : List (Nat × Option Nat)} (close : Close s s')
    (all : (s ++ t).map Prod.snd = (s' ++ t').map Prod.snd) : s.map Prod.snd = s'.map Prod.snd := by
  induction s generalizing s' with
  | nil =>
    cases s' with
    | nil => rfl
    | cons => exact close.elim
  | cons c s ih =>
    cases s' with
    | nil => exact close.elim
    | cons c' s' =>
      simp only [List.cons_append, List.map_cons, List.cons.injEq] at all
      rw [List.map_cons, List.map_cons, all.1, ih (close.2 all.1) all.2]

namespace ObliviousHistogram
variable {h h' g g' : ObliviousHistogram Z K A S V} {prf : Aes128} {keys : List UInt8 → Prop}
  {x : List UInt8}

/-- The calls of `evaluate_signal`, oldest first. -/
def calls (h : ObliviousHistogram Z K A S V) : List (Nat × Option Nat) := (signalsOf h.trace).reverse

theorem calls_of_suffix (suffix : h.trace <:+ g.trace) : ∃ s, g.calls = h.calls ++ s := by
  obtain ⟨t, same⟩ := suffix
  refine ⟨(signalsOf t).reverse, ?_⟩
  rw [calls, calls, ← same, signalsOf, signalsOf, signalsOf, List.filterMap_append, List.reverse_append]

/-- Estimators whose sums differ by the visits of one leaf in the open window. -/
structure Paired (height evictCtr : Nat) (leaf : TreeIndex) (a a' : AutoResizeState) : Prop where
  tCapacity : a'.config.tCapacity = a.config.tCapacity
  k : a'.k = a.k
  evictionsSinceCheck : a'.evictionsSinceCheck = a.evictionsSinceCheck
  deferred : a'.deferred = a.deferred
  emitsGrowSignal : a'.emitsGrowSignal = a.emitsGrowSignal
  pendingGrow : a'.pendingGrow = a.pendingGrow
  k_pos : 0 < a.k
  k_le : a.k ≤ leafCount height
  early : (a.emitsGrowSignal = false ∨ a.pendingGrow = none) → a.evictionsSinceCheck < a.k
  window : ∃ w, evictCtr = w + a.evictionsSinceCheck ∧
    a.cSum ≤ a'.cSum + visits height w a.evictionsSinceCheck leaf ∧
    a'.cSum ≤ a.cSum + visits height w a.evictionsSinceCheck leaf

variable [Add V] [Inhabited V]

/-- Equal counters, and equal masses of every payload but that of `x`. -/
structure Lockstep (prf : Aes128) (keys : List UInt8 → Prop) (x : List UInt8)
    (h h' : ObliviousHistogram Z K A S V) : Prop where
  inv : h.Inv (keyed prf keys)
  inv' : h'.Inv (keyed prf keys)
  prf_eq : h.prf = prf
  prf_eq' : h'.prf = prf
  height : h'.height = h.height
  epoch : h'.epoch = h.epoch
  appendCtr : h'.appendCtr = h.appendCtr
  evictCtr : h'.evictCtr = h.evictCtr
  sweepEnd : h'.sweepEnd = h.sweepEnd
  masses : ∀ p ≠ copyPrefix K x, mass (forget V) p h'.contents = mass (forget V) p h.contents
  auto : Option.Rel (Paired h.height h.evictCtr (toLeaf (prfTag prf x) h.height)) h.autoResize h'.autoResize

/-- Steps of the two runs whose new calls are close, and that stay in lockstep
while the decisions coincide. -/
def Coupled (prf : Aes128) (keys : List UInt8 → Prop) (x : List UInt8)
    (h h' g g' : ObliviousHistogram Z K A S V) : Prop :=
  ∃ s s', g.calls = h.calls ++ s ∧ g'.calls = h'.calls ++ s' ∧ Close s s' ∧
    (s.map Prod.snd = s'.map Prod.snd → Lockstep prf keys x g g')

omit [Inhabited V] in
theorem Coupled.trans {m m' : ObliviousHistogram Z K A S V} (first : Coupled prf keys x h h' m m')
    (second : Lockstep prf keys x m m' → Coupled prf keys x m m' g g') (suffix : m.trace <:+ g.trace)
    (suffix' : m'.trace <:+ g'.trace) : Coupled prf keys x h h' g g' := by
  obtain ⟨s, s', hm, hm', close, lock⟩ := first
  by_cases same : s.map Prod.snd = s'.map Prod.snd
  · obtain ⟨t, t', hg, hg', close', lock'⟩ := second (lock same)
    refine ⟨s ++ t, s' ++ t', ?_, ?_, close.append fun _ => close', fun all => lock' ?_⟩
    · rw [hg, hm, List.append_assoc]
    · rw [hg', hm', List.append_assoc]
    · rw [List.map_append, List.map_append, same] at all
      exact List.append_cancel_left all
  · obtain ⟨t, hg⟩ := calls_of_suffix suffix
    obtain ⟨t', hg'⟩ := calls_of_suffix suffix'
    refine ⟨s ++ t, s' ++ t', ?_, ?_, close.append fun all => absurd all same,
      fun all => absurd (close.decisions all) same⟩
    · rw [hg, hm, List.append_assoc]
    · rw [hg', hm', List.append_assoc]

omit [Inhabited V] in
theorem Coupled.of_lockstep (lock : Lockstep prf keys x g g') (calls : signalsOf g.trace = signalsOf h.trace)
    (calls' : signalsOf g'.trace = signalsOf h'.trace) : Coupled prf keys x h h' g g' := by
  refine ⟨[], [], ?_, ?_, trivial, fun _ => lock⟩
  · rw [ObliviousHistogram.calls, calls, List.append_nil, ObliviousHistogram.calls]
  · rw [ObliviousHistogram.calls, calls', List.append_nil, ObliviousHistogram.calls]

section Evict

omit [Inhabited V] in
theorem Lockstep.counted (lock : Lockstep prf keys x h h') {p : Vector UInt8 K} (other : p ≠ copyPrefix K x) :
    Counted (keyed prf keys) h' p ↔ Counted (keyed prf keys) h p := by
  rw [Counted, Counted, lock.height, lock.evictCtr, lock.epoch, lock.masses p other]

/-- Both evictions count the same payloads, that of `x` aside, and that one only at its leaf. -/
theorem Lockstep.evictCount_le (sep : Separated prf K keys) (hx : keys x)
    (lock : Lockstep prf keys x h h') : h.evictCount ≤ h'.evictCount +
      if evictLeafAt h.height h.evictCtr = toLeaf (prfTag prf x) h.height then 1 else 0 := by
  obtain ⟨payloads, nodup, count, mem⟩ := evictCount_spec lock.inv sep.identified sep.oneTag
  obtain ⟨payloads', nodup', count', mem'⟩ := evictCount_spec lock.inv' sep.identified sep.oneTag
  rw [← count, ← count']
  by_cases here : evictLeafAt h.height h.evictCtr = toLeaf (prfTag prf x) h.height
  · rw [if_pos here]
    have sub : payloads.Subperm (copyPrefix K x :: payloads') := List.subperm_of_subset nodup fun p hp => ?_
    · exact sub.length_le
    by_cases other : p = copyPrefix K x
    · exact other ▸ .head _
    · exact .tail _ ((mem' p).mpr ((lock.counted other).mpr ((mem p).mp hp)))
  · rw [if_neg here]
    refine (List.subperm_of_subset nodup fun p hp => ?_).length_le
    by_cases other : p = copyPrefix K x
    · obtain ⟨⟨t, ht, visited⟩, -⟩ := (mem p).mp hp
      have tag : t = prfTag prf x := sep.covers hx (other ▸ ht)
      exact absurd (tag ▸ visited).symm here
    · exact (mem' p).mpr ((lock.counted other).mpr ((mem p).mp hp))

omit [Inhabited V] in
theorem Paired.symm {height evictCtr : Nat} {leaf : TreeIndex} {a a' : AutoResizeState}
    (pair : Paired height evictCtr leaf a a') : Paired height evictCtr leaf a' a := by
  obtain ⟨w, start, le, le'⟩ := pair.window
  refine ⟨pair.tCapacity.symm, pair.k.symm, pair.evictionsSinceCheck.symm, pair.deferred.symm,
    pair.emitsGrowSignal.symm, pair.pendingGrow.symm, pair.k ▸ pair.k_pos, pair.k ▸ pair.k_le, ?_, w, ?_⟩
  · rw [pair.emitsGrowSignal, pair.pendingGrow, pair.evictionsSinceCheck, pair.k]
    exact pair.early
  · rw [pair.evictionsSinceCheck]
    exact ⟨start, le', le⟩

omit [Inhabited V] in
theorem Lockstep.symm (lock : Lockstep prf keys x h h') : Lockstep prf keys x h' h := by
  refine ⟨lock.inv', lock.inv, lock.prf_eq', lock.prf_eq, lock.height.symm, lock.epoch.symm,
    lock.appendCtr.symm, lock.evictCtr.symm, lock.sweepEnd.symm, fun p hp => (lock.masses p hp).symm, ?_⟩
  rw [lock.height, lock.evictCtr]
  have auto := lock.auto
  generalize h.autoResize = o at auto ⊢
  generalize h'.autoResize = o' at auto ⊢
  cases auto with
  | some pair => exact .some pair.symm
  | none => exact .none

/-- One more eviction in the open window. -/
theorem Paired.recordEviction {height evictCtr : Nat} {leaf : TreeIndex} {a a' : AutoResizeState}
    (pair : Paired height evictCtr leaf a a') {c c' : Nat}
    (le : c ≤ c' + if evictLeafAt height evictCtr = leaf then 1 else 0)
    (le' : c' ≤ c + if evictLeafAt height evictCtr = leaf then 1 else 0) :
    ∃ w, evictCtr + 1 = w + (a.evictionsSinceCheck + 1) ∧
      a.cSum + c ≤ a'.cSum + c' + visits height w (a.evictionsSinceCheck + 1) leaf ∧
      a'.cSum + c' ≤ a.cSum + c + visits height w (a.evictionsSinceCheck + 1) leaf := by
  obtain ⟨w, start, sum, sum'⟩ := pair.window
  refine ⟨w, by omega, ?_⟩
  rw [visits_succ, ← start]
  omega

/-- The parts of a lockstep that an eviction changes only through its resize check. -/
theorem Lockstep.of_evict (lock : Lockstep prf keys x h h') (run : h.evictAfterInsert math = .ok g)
    (run' : h'.evictAfterInsert math' = .ok g') (height : g'.height = g.height) (epoch : g'.epoch = g.epoch)
    (appendCtr : g'.appendCtr = g.appendCtr) (evictCtr : g'.evictCtr = g.evictCtr)
    (sweepEnd : g'.sweepEnd = g.sweepEnd)
    (auto : Option.Rel (Paired g.height g.evictCtr (toLeaf (prfTag prf x) g.height)) g.autoResize g'.autoResize) :
    Lockstep prf keys x g g' := by
  have moves := evictAfterInsert_reshuffle lock.inv.shape.height_le run
  have moves' := evictAfterInsert_reshuffle lock.inv'.shape.height_le run'
  exact ⟨moves.inv lock.inv, moves'.inv lock.inv', moves.prf.trans lock.prf_eq,
    moves'.prf.trans lock.prf_eq', height, epoch, appendCtr, evictCtr, sweepEnd, fun p hp => by
      rw [moves.mass_eq lock.inv, moves'.mass_eq lock.inv', lock.masses p hp], auto⟩

omit [Add V] [Inhabited V] in
theorem calls_cons {c : Nat × Option Nat} (signals : signalsOf g.trace = c :: signalsOf h.trace) :
    g.calls = h.calls ++ [c] := by
  rw [calls, signals, List.reverse_cons, calls]

omit [Inhabited V] in
theorem Ticked.same (lock : Lockstep prf keys x h h') (tick : Ticked h g) (tick' : Ticked h' g') :
    g'.height = g.height ∧ g'.epoch = g.epoch ∧ g'.appendCtr = g.appendCtr ∧ g'.evictCtr = g.evictCtr ∧
      g'.sweepEnd = g.sweepEnd :=
  ⟨tick'.height.trans (lock.height.trans tick.height.symm), tick'.epoch.trans (lock.epoch.trans tick.epoch.symm),
    tick'.appendCtr.trans (lock.appendCtr.trans tick.appendCtr.symm), by
      rw [tick'.evictCtr, tick.evictCtr, lock.evictCtr],
    tick'.sweepEnd.trans (lock.sweepEnd.trans tick.sweepEnd.symm)⟩

omit [Add V] [Inhabited V] in
theorem dpInitialK_bounds (math : ResizeMath) (t l a : Nat) (pos : 0 < l) :
    0 < dpInitialK math t l a ∧ dpInitialK math t l a ≤ l := by
  rw [dpInitialK]
  omega

omit [Add V] [Inhabited V] in
/-- A growth opens a new window on both sides. -/
theorem Paired.grown (sameK : math'.rawK = math.rawK) {a a' : AutoResizeState}
    (tCapacity : a'.config.tCapacity = a.config.tCapacity) (deferred : a'.deferred = a.deferred)
    (emitsGrowSignal : a'.emitsGrowSignal = a.emitsGrowSignal) (pendingGrow : a'.pendingGrow = a.pendingGrow)
    (fresh : a.evictionsSinceCheck = 0 ∧ a.cSum = 0) (fresh' : a'.evictionsSinceCheck = 0 ∧ a'.cSum = 0)
    (height evictCtr : Nat) (leaf : TreeIndex) :
    Paired height evictCtr leaf (a.regrown math Z A height) (a'.regrown math' Z A height) := by
  have bounds := dpInitialK_bounds math (effectiveTCapacity Z (saturatingMul a.config.tCapacity 2))
    (leafCount height) A (Nat.two_pow_pos height)
  refine ⟨?_, ?_, fresh'.1.trans fresh.1.symm, deferred, emitsGrowSignal, pendingGrow, bounds.1, bounds.2,
    fun _ => ?_, evictCtr, ?_, ?_, ?_⟩
  · exact congrArg (saturatingMul · 2) tCapacity
  · simp only [AutoResizeState.regrown, dpInitialK, sameK, tCapacity]
  · exact fresh.1 ▸ bounds.1
  · exact (congrArg (evictCtr + ·) fresh.1).symm
  · exact fresh.2 ▸ Nat.zero_le _
  · exact fresh'.2 ▸ Nat.zero_le _

omit [Add V] [Inhabited V] in
/-- The window is checked once it is over, unless a growth is pending. -/
theorem shouldCheckEpoch_recordEviction (a : AutoResizeState) (c : Nat) :
    (a.recordEviction c).shouldCheckEpoch = true ↔
      (a.emitsGrowSignal = false ∨ a.pendingGrow = none) ∧ a.k ≤ a.evictionsSinceCheck + 1 := by
  simp [AutoResizeState.shouldCheckEpoch, AutoResizeState.recordEviction]

section Pair
variable {height evictCtr : Nat} {leaf : TreeIndex} {a a' : AutoResizeState} {c c' : Nat}

omit [Inhabited V] [Add V] in
theorem Paired.due_eq (pair : Paired height evictCtr leaf a a') :
    (a'.recordEviction c').shouldCheckEpoch = (a.recordEviction c).shouldCheckEpoch := by
  rw [Bool.eq_iff_iff, shouldCheckEpoch_recordEviction, shouldCheckEpoch_recordEviction, pair.emitsGrowSignal,
    pair.pendingGrow, pair.k, pair.evictionsSinceCheck]

omit [Inhabited V] [Add V] in
/-- An eviction that is not checked leaves the window open. -/
theorem Paired.counted (pair : Paired height evictCtr leaf a a')
    (le : c ≤ c' + if evictLeafAt height evictCtr = leaf then 1 else 0)
    (le' : c' ≤ c + if evictLeafAt height evictCtr = leaf then 1 else 0)
    (early : (a.recordEviction c).shouldCheckEpoch = false) :
    Paired height (evictCtr + 1) leaf (a.recordEviction c) (a'.recordEviction c') := by
  refine ⟨pair.tCapacity, pair.k, congrArg (· + 1) pair.evictionsSinceCheck, pair.deferred,
    pair.emitsGrowSignal, pair.pendingGrow, pair.k_pos, pair.k_le, fun opened => ?_, pair.recordEviction le le'⟩
  by_contra late
  have due := (shouldCheckEpoch_recordEviction a c).mpr ⟨opened, Nat.le_of_not_lt late⟩
  exact Bool.false_ne_true (early.symm.trans due)

omit [Inhabited V] [Add V] in
/-- A window visits each leaf at most once, so the checked sums differ by at most one. -/
theorem Paired.sums_close (pair : Paired height evictCtr leaf a a') (height_le : height ≤ 31)
    (le : c ≤ c' + if evictLeafAt height evictCtr = leaf then 1 else 0)
    (le' : c' ≤ c + if evictLeafAt height evictCtr = leaf then 1 else 0)
    (due : (a.recordEviction c).shouldCheckEpoch = true) :
    a.cSum + c ≤ a'.cSum + c' + 1 ∧ a'.cSum + c' ≤ a.cSum + c + 1 := by
  obtain ⟨w, -, sum, sum'⟩ := pair.recordEviction le le'
  have room := pair.early ((shouldCheckEpoch_recordEviction a c).mp due).1
  have once := visits_le_one height_le w (n := a.evictionsSinceCheck + 1) (room.trans_le pair.k_le) leaf
  omega

omit [Inhabited V] [Add V] in
/-- A check without growth opens a new window on both sides. -/
theorem Paired.checked (pair : Paired height evictCtr leaf a a') {signal : Option Nat} {next next' : AutoResizeState}
    (evaluated : (a.recordEviction c).evaluateSignal math Z = (signal, next))
    (evaluated' : (a'.recordEviction c').evaluateSignal math' Z = (signal, next')) :
    Paired height (evictCtr + 1) leaf
      { next with pendingGrow := if a.deferred && a.emitsGrowSignal then signal else a.pendingGrow }
      { next' with pendingGrow := if a'.deferred && a'.emitsGrowSignal then signal else a'.pendingGrow } := by
  obtain ⟨n, cSum, config, k, deferred, emits, -⟩ := evaluateSignal_spec evaluated
  obtain ⟨n', cSum', config', k', deferred', emits', -⟩ := evaluateSignal_spec evaluated'
  refine ⟨?_, k'.trans (pair.k.trans k.symm), n'.trans n.symm, deferred'.trans (pair.deferred.trans deferred.symm),
    emits'.trans (pair.emitsGrowSignal.trans emits.symm), ?_, k ▸ pair.k_pos, k ▸ pair.k_le,
    fun _ => (n.trans_lt pair.k_pos).trans_eq k.symm, evictCtr + 1, ?_, ?_, ?_⟩
  · change next'.config.tCapacity = next.config.tCapacity
    rw [config', config]
    exact pair.tCapacity
  · change (if a'.deferred && a'.emitsGrowSignal then signal else a'.pendingGrow) =
      if a.deferred && a.emitsGrowSignal then signal else a.pendingGrow
    rw [pair.deferred, pair.emitsGrowSignal, pair.pendingGrow]
  · exact (congrArg (evictCtr + 1 + ·) n).symm
  · exact cSum.trans_le (Nat.zero_le _)
  · exact cSum'.trans_le (Nat.zero_le _)

omit [Inhabited V] [Add V] in
/-- So does a check with an immediate growth. -/
theorem Paired.checked_grown (sameK : math'.rawK = math.rawK) (pair : Paired height evictCtr leaf a a')
    {signal : Option Nat} {next next' : AutoResizeState}
    (evaluated : (a.recordEviction c).evaluateSignal math Z = (signal, next))
    (evaluated' : (a'.recordEviction c').evaluateSignal math' Z = (signal, next')) (grownHeight grownCtr : Nat)
    (grownLeaf : TreeIndex) : Paired grownHeight grownCtr grownLeaf (next.regrown math Z A grownHeight)
      (next'.regrown math' Z A grownHeight) := by
  obtain ⟨n, cSum, config, -, deferred, emits, pending⟩ := evaluateSignal_spec evaluated
  obtain ⟨n', cSum', config', -, deferred', emits', pending'⟩ := evaluateSignal_spec evaluated'
  refine .grown sameK ?_ (deferred'.trans (pair.deferred.trans deferred.symm))
    (emits'.trans (pair.emitsGrowSignal.trans emits.symm))
    (pending'.trans (pair.pendingGrow.trans pending.symm)) ⟨n, cSum⟩ ⟨n', cSum'⟩ _ _ _
  rw [config', config]
  exact pair.tCapacity

end Pair

omit [Inhabited V] in
theorem Lockstep.autoResize_none (lock : Lockstep prf keys x h h') (before : h.autoResize = none) :
    h'.autoResize = none := by
  have auto := lock.auto
  rw [before] at auto
  generalize h'.autoResize = o at auto ⊢
  cases auto
  rfl

omit [Inhabited V] in
theorem Lockstep.autoResize_some (lock : Lockstep prf keys x h h') {a : AutoResizeState}
    (before : h.autoResize = some a) : ∃ a', h'.autoResize = some a' ∧
      Paired h.height h.evictCtr (toLeaf (prfTag prf x) h.height) a a' := by
  have auto := lock.auto
  rw [before] at auto
  generalize h'.autoResize = o at auto ⊢
  cases auto with
  | some pair => exact ⟨_, rfl, pair⟩

/-- Two evictions that leave their trees at the same height. -/
theorem Lockstep.of_ticked (lock : Lockstep prf keys x h h') (run : h.evictAfterInsert math = .ok g)
    (run' : h'.evictAfterInsert math' = .ok g') (tick : Ticked h g) (tick' : Ticked h' g')
    (auto : Option.Rel (Paired h.height (h.evictCtr + 1) (toLeaf (prfTag prf x) h.height))
      g.autoResize g'.autoResize) : Lockstep prf keys x g g' := by
  obtain ⟨height, epoch, appendCtr, evictCtr, sweepEnd⟩ := tick.same lock tick'
  refine lock.of_evict run run' height epoch appendCtr evictCtr sweepEnd ?_
  rw [tick.height, tick.evictCtr]
  exact auto

/-- Two evictions that end in a growth. -/
theorem Lockstep.of_grown (lock : Lockstep prf keys x h h') (run : h.evictAfterInsert math = .ok g)
    (run' : h'.evictAfterInsert math' = .ok g') {m m' : ObliviousHistogram Z K A S V} (tick : Ticked h m)
    (tick' : Ticked h' m') (grown : Grown math m g) (grown' : Grown math' m' g')
    (auto : Option.Rel (Paired g.height g.evictCtr (toLeaf (prfTag prf x) g.height)) g.autoResize g'.autoResize) :
    Lockstep prf keys x g g' := by
  obtain ⟨height, epoch, appendCtr, evictCtr, -⟩ := tick.same lock tick'
  refine lock.of_evict run run' ?_ ?_ ?_ ?_ ?_ auto
  · rw [grown'.height, grown.height, height]
  · rw [grown'.epoch, grown.epoch, epoch]
  · rw [grown'.appendCtr, grown.appendCtr, appendCtr]
  · rw [grown'.evictCtr, grown.evictCtr, evictCtr]
  · rw [grown'.sweepEnd, grown.sweepEnd, height, evictCtr]

/-- One eviction in both runs. -/
theorem Lockstep.evict (sameK : math'.rawK = math.rawK) (sep : Separated prf K keys) (hx : keys x)
    (lock : Lockstep prf keys x h h') (run : h.evictAfterInsert math = .ok g)
    (run' : h'.evictAfterInsert math' = .ok g') : Coupled prf keys x h h' g g' := by
  have le := lock.evictCount_le sep hx
  have le' := lock.symm.evictCount_le sep hx
  rw [lock.height, lock.evictCtr] at le'
  have step := evictAfterInsert_control run
  have step' := evictAfterInsert_control run'
  generalize h.evictCount = c at le le' step
  generalize h'.evictCount = c' at le le' step'
  cases before : h.autoResize with
  | none =>
    obtain ⟨tick, after, signals⟩ := step.of_none before
    obtain ⟨tick', after', signals'⟩ := step'.of_none (lock.autoResize_none before)
    refine .of_lockstep (lock.of_ticked run run' tick tick' ?_) signals signals'
    rw [after, after']
    exact .none
  | some a =>
    obtain ⟨a', before', pair⟩ := lock.autoResize_some before
    cases due : (a.recordEviction c).shouldCheckEpoch with
    | false =>
      obtain ⟨tick, after, signals⟩ := step.of_early before due
      obtain ⟨tick', after', signals'⟩ := step'.of_early before' (pair.due_eq.trans due)
      refine .of_lockstep (lock.of_ticked run run' tick tick' ?_) signals signals'
      rw [after, after']
      exact .some (pair.counted le le' due)
    | true =>
      obtain ⟨signal, next, evaluated, signals, outcome⟩ := step.of_due before due
      obtain ⟨signal', next', evaluated', signals', outcome'⟩ := step'.of_due before' (pair.due_eq.trans due)
      refine ⟨[(a.cSum + c, signal)], [(a'.cSum + c', signal')], calls_cons signals, calls_cons signals',
        ⟨pair.sums_close lock.inv.shape.height_le le le' due, fun _ => trivial⟩, fun same => ?_⟩
      obtain rfl : signal = signal' := by simpa using same
      rcases outcome with ⟨tick, kept, after⟩ | ⟨immediate, fired, m, tick, middle, grown⟩
      · rcases outcome' with ⟨tick', -, after'⟩ | ⟨immediate', fired', -⟩
        · refine lock.of_ticked run run' tick tick' ?_
          rw [after, after']
          exact .some (pair.checked evaluated evaluated')
        · -- equal decisions: the second run cannot grow where the first did not
          rcases kept with deferred | quiet
          · rw [pair.deferred, deferred] at immediate'
            exact absurd immediate'.symm Bool.false_ne_true
          · exact absurd quiet fired'
      · rcases outcome' with ⟨-, kept', -⟩ | ⟨-, -, m', tick', middle', grown'⟩
        · rcases kept' with deferred | quiet
          · rw [pair.deferred, immediate] at deferred
            exact absurd deferred Bool.false_ne_true
          · exact absurd quiet fired
        · refine lock.of_grown run run' tick tick' grown grown' ?_
          rw [grown'.autoResize, grown.autoResize, middle, middle', (tick.same lock tick').1, grown.height]
          exact .some (pair.checked_grown sameK evaluated evaluated' _ _ _)

end Evict

section Insert

omit [Inhabited V] in
theorem Lockstep.filled (lock : Lockstep prf keys x h h') {m m' : ObliviousHistogram Z K A S V} {count : Nat}
    {blocks blocks' : List (OramBlock K V)} (filled : Filled (keyed prf keys) h count blocks m)
    (filled' : Filled (keyed prf keys) h' count blocks' m')
    (same : ∀ p ≠ copyPrefix K x, mass (forget V) p blocks' = mass (forget V) p blocks) :
    Lockstep prf keys x m m' := by
  refine ⟨filled.inv, filled'.inv, filled.prf.trans lock.prf_eq, filled'.prf.trans lock.prf_eq', ?_, ?_, ?_,
    ?_, ?_, fun p hp => ?_, ?_⟩
  · rw [filled'.height, filled.height, lock.height]
  · rw [filled'.epoch, filled.epoch, lock.epoch]
  · rw [filled'.appendCtr, filled.appendCtr, lock.appendCtr]
  · rw [filled'.evictCtr, filled.evictCtr, lock.evictCtr]
  · rw [filled'.sweepEnd, filled.sweepEnd, lock.sweepEnd]
  · rw [mass_perm p filled'.contents, mass_perm p filled.contents, mass_append, mass_append, mass_reals,
      mass_reals, same p hp, lock.masses p hp]
  · rw [filled.autoResize, filled'.autoResize, filled.height, filled.evictCtr]
    exact lock.auto

/-- An eviction in both runs if it is due. -/
theorem Lockstep.evictIf (sameK : math'.rawK = math.rawK) (sep : Separated prf K keys) (hx : keys x)
    (lock : Lockstep prf keys x h h') {due : Prop} [Decidable due]
    (run : (if due then h.evictAfterInsert math else .ok h) = .ok g)
    (run' : (if due then h'.evictAfterInsert math' else .ok h') = .ok g') : Coupled prf keys x h h' g g' := by
  split at run
  · rename_i here
    rw [if_pos here] at run'
    exact lock.evict sameK sep hx run run'
  · rename_i here
    rw [if_neg here] at run'
    simp only [Except.ok.injEq] at run run'
    exact .of_lockstep (run ▸ run' ▸ lock) (run ▸ rfl) (run' ▸ rfl)

omit [Add V] in
theorem preparedBlock_masked (epoch : UInt8) (tag : UInt64) (value : V) (payload : Vector UInt8 K) :
    preparedBlock epoch (tag, value, payload, 0) = OramBlock.dummy := by
  have off : ((0 : UInt8) &&& 1 != 0) = false := rfl
  rw [preparedBlock, updateBlock_eq, off, if_neg Bool.false_ne_true]

/-- Masking changes no other payload. -/
theorem mass_maskUpdate {p q : Vector UInt8 K} (other : p ≠ q) (epoch : UInt8)
    (updates : List (PreparedUpdate K V)) :
    mass (forget V) p ((updates.map (maskUpdate q)).map (preparedBlock epoch)) =
      mass (forget V) p (updates.map (preparedBlock epoch)) := by
  induction updates with
  | nil => rfl
  | cons u updates ih =>
    rw [List.map_cons, List.map_cons, List.map_cons, mass_cons, mass_cons, ih]
    congr 1
    by_cases here : u.2.2.1 = q
    · rw [maskUpdate, if_pos here, preparedBlock_masked, weight_dummy rfl, preparedBlock, updateBlock_eq]
      split
      · exact (weight_other fun same => other (same.symm.trans here)).symm
      · exact (weight_dummy rfl).symm
    · rw [maskUpdate, if_neg here]

omit [Add V] [Inhabited V] in
theorem maskUpdate_known {known : UInt64 × Vector UInt8 K → Prop} {q : Vector UInt8 K}
    {updates : List (PreparedUpdate K V)} (knows : KnownUpdates known updates) :
    KnownUpdates known (updates.map (maskUpdate q)) := by
  intro u hu on real
  obtain ⟨v, hv, rfl⟩ := List.mem_map.mp hu
  rw [maskUpdate] at on real ⊢
  split at on
  · simp at on
  · rename_i other
    rw [if_neg other] at real ⊢
    exact knows v hv on real

omit [Inhabited V] in
theorem Lockstep.interval (lock : Lockstep prf keys x h h') :
    h'.currentEvictInterval = h.currentEvictInterval := by
  rw [currentEvictInterval, currentEvictInterval, lock.evictCtr, lock.sweepEnd]

omit [Inhabited V] in
theorem Lockstep.chunkLen (lock : Lockstep prf keys x h h') (period remaining : Nat) :
    h'.chunkLen period remaining = h.chunkLen period remaining := by
  rw [ObliviousHistogram.chunkLen, ObliviousHistogram.chunkLen, lock.appendCtr]

/-- A batch and the same batch with the slots of `x` masked out. -/
theorem Lockstep.batch (sameK : math'.rawK = math.rawK) (sep : Separated prf K keys) (hx : keys x)
    (lock : Lockstep prf keys x h h') {updates : List (PreparedUpdate K V)}
    (knows : KnownUpdates (keyed prf keys) updates)
    (run : h.appendPreparedMaskedBatch math updates = .ok g)
    (run' : h'.appendPreparedMaskedBatch math' (updates.map (maskUpdate (copyPrefix K x))) = .ok g') :
    Coupled prf keys x h h' g g' := by
  induction hn : updates.length using Nat.strong_induction_on generalizing h h' updates with
  | _ n ih =>
    by_cases none : updates = []
    · rw [none, appendPreparedMaskedBatch, dif_pos rfl, Except.ok.injEq] at run
      rw [none, List.map_nil, appendPreparedMaskedBatch, dif_pos rfl, Except.ok.injEq] at run'
      exact .of_lockstep (run ▸ run' ▸ lock) (run ▸ rfl) (run' ▸ rfl)
    have knows' := maskUpdate_known (q := copyPrefix K x) knows
    obtain ⟨progress, m, e, filled, evicted, run⟩ := batch_filled lock.inv knows none run
    obtain ⟨-, m', e', filled', evicted', run'⟩ := batch_filled lock.inv' knows' (by simpa using none) run'
    rw [List.length_map, lock.interval, lock.chunkLen, ← List.map_take, lock.epoch] at filled'
    rw [List.length_map, lock.interval, lock.chunkLen, ← List.map_drop] at run'
    generalize h.chunkLen h.currentEvictInterval updates.length = count at *
    have mlock := lock.filled filled filled' fun p hp => mass_maskUpdate hp h.epoch (updates.take count)
    rw [lock.interval, mlock.appendCtr] at evicted'
    have first := mlock.evictIf sameK sep hx evicted evicted'
    have inserted : Coupled prf keys x h h' m m' := .of_lockstep mlock filled.signals filled'.signals
    have moves := evictIf_reshuffle mlock.inv.shape.height_le evicted
    have moves' := evictIf_reshuffle mlock.inv'.shape.height_le evicted'
    have here := inserted.trans (fun _ => first) moves.trace moves'.trace
    have shorter : (updates.drop count).length < n := by
      have := List.length_pos_iff.mpr none
      rw [List.length_drop]
      omega
    have rest : KnownUpdates (keyed prf keys) (updates.drop count) := fun u hu =>
      knows u (List.mem_of_mem_drop hu)
    refine here.trans (fun lock => ih _ shorter lock rest run run' rfl) ?_ ?_
    · exact (appendPreparedMaskedBatch_inv (moves.inv mlock.inv) rest run).2.2
    · exact (appendPreparedMaskedBatch_inv (moves'.inv mlock.inv') (maskUpdate_known rest) run').2.2

/-- `append`, masked out in the second run if the key is `x`. -/
theorem Lockstep.append (sameK : math'.rawK = math.rawK) (sep : Separated prf K keys) (hx : keys x)
    (lock : Lockstep prf keys x h h') {key : List UInt8} (hkey : keys key) {val : V}
    (run : h.append math key val = .ok g)
    {out : Option V} (run' : h'.step math' ((TreeOp.append key val).mask prf x) = .ok (out, g')) :
    Coupled prf keys x h h' g g' := by
  rw [ObliviousHistogram.append, lock.prf_eq] at run
  obtain ⟨m, filled, evicted⟩ := addPreparedInner_filled lock.inv (fun _ => ⟨key, hkey, rfl⟩) run
  have finish : ∀ (m' : ObliviousHistogram Z K A S V) (blocks : List (OramBlock K V)),
      Filled (keyed prf keys) h' 1 blocks m' →
      (if h'.currentEvictInterval ∣ m'.appendCtr then m'.evictAfterInsert math' else .ok m') = .ok g' →
      (∀ p ≠ copyPrefix K x, mass (forget V) p blocks =
        mass (forget V) p [⟨prfTag prf key, h.epoch, val, copyPrefix K key⟩]) →
      Coupled prf keys x h h' g g' := fun m' blocks filled' evicted' same => by
    have mlock := lock.filled filled filled' same
    rw [lock.interval, mlock.appendCtr] at evicted'
    have inserted : Coupled prf keys x h h' m m' := .of_lockstep mlock filled.signals filled'.signals
    exact inserted.trans (fun lock => lock.evictIf sameK sep hx evicted evicted')
      (evictIf_reshuffle mlock.inv.shape.height_le evicted).trace
      (evictIf_reshuffle mlock.inv'.shape.height_le evicted').trace
  by_cases masked : key = x
  · rw [TreeOp.mask, if_pos masked] at run'
    obtain ⟨r, hr, same⟩ := map_ok run'
    obtain ⟨-, rfl⟩ := Prod.mk.inj same
    obtain ⟨progress, m', e', filled', evicted', rest⟩ := batch_filled lock.inv'
      (fun u hu on => by
        rw [List.mem_singleton.mp hu] at on
        simp at on) (List.cons_ne_nil _ _) hr
    have one : h'.chunkLen h'.currentEvictInterval [(prfTag prf key, val, copyPrefix K key, (0 : UInt8))].length =
        1 := by
      refine Nat.le_antisymm ?_ progress
      exact Nat.min_le_left _ _
    rw [one] at filled' rest
    have last : e' = g' := by
      rw [List.drop_one, List.tail_cons, appendPreparedMaskedBatch, dif_pos rfl, Except.ok.injEq] at rest
      exact rest
    refine finish m' _ filled' (last ▸ evicted') fun p hp => ?_
    rw [List.take_succ_cons, List.take_zero, List.map_singleton, preparedBlock_masked, mass_cons,
      mass_cons, mass_nil, weight_dummy rfl, weight_other]
    exact fun same => hp (same.symm.trans (by rw [masked]))
  · rw [TreeOp.mask, if_neg masked] at run'
    obtain ⟨r, hr, same⟩ := map_ok run'
    obtain ⟨-, rfl⟩ := Prod.mk.inj same
    rw [ObliviousHistogram.append, lock.prf_eq'] at hr
    obtain ⟨m', filled', evicted'⟩ := addPreparedInner_filled lock.inv' (fun _ => ⟨key, hkey, rfl⟩) hr
    refine finish m' _ filled' evicted' fun p _ => ?_
    rw [lock.epoch]

end Insert

end ObliviousHistogram
end Roga
