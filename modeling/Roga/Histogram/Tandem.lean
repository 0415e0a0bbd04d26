import Roga.Histogram.Noise

/-! Two trees that differ in the insert slots of one key, side by side. Their transcripts
drift apart by one count at most, and only in growth epochs in which the key comes in. -/
namespace Roga
open Ct Reals ObliviousStash SparseVector ObliviousHistogram
variable {Z K A S : Nat} {V : Type} {math math' : ResizeMath}

section Epochs
variable {M : Type} [AddCommSemigroup M]

theorem Mass.epoch_add (a b : Mass M) : (a + b).epoch = Option.merge min a.epoch b.epoch := by
  cases a using WithZero.recZeroCoe with
  | zero =>
    rw [zero_add]
    cases b using WithZero.recZeroCoe <;> rfl
  | coe a =>
    cases b using WithZero.recZeroCoe with
    | zero => rfl
    | coe b => rfl

variable [Add V] {f : V →ₙ+ M}

theorem weight_epoch (p : Vector UInt8 K) (b : OramBlock K V) :
    (weight f p b).epoch = if b.isReal = true ∧ b.payload = p then some b.epoch.toNat else none := by
  by_cases here : b.isReal = true ∧ b.payload = p
  · rw [if_pos here, weight_real here.1 here.2]
    rfl
  · have none : weight f p b = 0 := if_neg here
    rw [if_neg here, none]
    rfl

end Epochs

/-- An update that stores a real block of a payload. -/
def storesOf (p : Vector UInt8 K) (u : PreparedUpdate K V) : Bool :=
  decide (u.2.2.2 &&& 1 ≠ 0 ∧ u.1 ≠ 0 ∧ u.2.2.1 = p)

/-- For each insert slot of an operation, whether it stores the key. -/
def TreeOp.stores (x : List UInt8) : TreeOp K V → List Bool
  | .append key _ => [decide (key = x)]
  | .appendBatch updates => updates.map (storesOf (copyPrefix K x))
  | _ => []

/-- Whether the key is in the tree after an operation, if it was so before. -/
def TreeOp.leaves (x : List UInt8) (present : Bool) : TreeOp K V → Bool
  | .readTotal key => present && decide (key ≠ x)
  | op => present || (op.stores x).any id

/-- The slots at which the key comes in. -/
def firsts : Bool → List Bool → List Bool
  | _, [] => []
  | present, stored :: slots => (stored && !present) :: firsts (present || stored) slots

/-- The slots of a run at which the key comes in. -/
def arrivals (x : List UInt8) : Bool → List (TreeOp K V) → List Bool
  | _, [] => []
  | present, op :: ops => firsts present (op.stores x) ++ arrivals x (op.leaves x present) ops

theorem length_firsts (present : Bool) (slots : List Bool) : (firsts present slots).length = slots.length := by
  induction slots generalizing present with
  | nil => rfl
  | cons stored slots ih => rw [firsts, List.length_cons, ih, List.length_cons]

theorem firsts_append (present : Bool) (s t : List Bool) :
    firsts present (s ++ t) = firsts present s ++ firsts (present || s.any id) t := by
  induction s generalizing present with
  | nil => simp [firsts]
  | cons stored s ih => simp [firsts, ih, Bool.or_assoc]

theorem any_firsts (present : Bool) (slots : List Bool) :
    (firsts present slots).any id = (slots.any id && !present) := by
  induction slots generalizing present with
  | nil => rfl
  | cons stored slots ih =>
    rw [firsts, List.any_cons, ih, List.any_cons]
    cases stored <;> cases present <;> simp

section Stored
variable [Add V] [Inhabited V]

/-- The blocks of a payload that a chunk of updates inserts. -/
theorem stored_epoch (p : Vector UInt8 K) (epoch : UInt8) (updates : List (PreparedUpdate K V)) :
    (mass (forget V) p (updates.map (preparedBlock epoch))).epoch =
      if (updates.map (storesOf p)).any id = true then some epoch.toNat else none := by
  induction updates with
  | nil => rfl
  | cons u updates ih =>
    have one : (weight (forget V) p (preparedBlock epoch u)).epoch =
        if storesOf p u = true then some epoch.toNat else none := by
      by_cases on : u.2.2.2 &&& 1 ≠ 0
      · have block : preparedBlock epoch u = ⟨u.1, epoch, u.2.1, u.2.2.1⟩ := by
          rw [preparedBlock, updateBlock_eq]
          exact if_pos (by simpa using on)
        rw [block, weight_epoch, storesOf]
        by_cases here : u.1 ≠ 0 ∧ u.2.2.1 = p
        · rw [if_pos ⟨OramBlock.isReal_iff.mpr here.1, here.2⟩, if_pos (decide_eq_true ⟨on, here⟩)]
        · rw [if_neg fun both => here ⟨OramBlock.isReal_iff.mp both.1, both.2⟩,
            if_neg fun both => here (of_decide_eq_true both).2]
      · have block : preparedBlock epoch u = OramBlock.dummy := by
          rw [preparedBlock, updateBlock_eq]
          exact if_neg (by simpa using on)
        rw [block, weight_epoch, storesOf, if_neg fun both => OramBlock.isReal_iff.mp both.1 rfl,
          if_neg fun both => on (of_decide_eq_true both).1]
    rw [List.map_cons, mass_cons, Mass.epoch_add, one, ih, List.map_cons, List.any_cons, id]
    cases storesOf p u with
    | true =>
      rw [if_pos rfl, Bool.true_or, if_pos rfl]
      split
      · exact congrArg some (Nat.min_self _)
      · rfl
    | false =>
      rw [if_neg Bool.false_ne_true, Bool.false_or]
      split <;> rfl

/-- Masked updates insert none. -/
theorem stored_masked (p : Vector UInt8 K) (epoch : UInt8) (updates : List (PreparedUpdate K V)) :
    (mass (forget V) p ((updates.map (maskUpdate p)).map (preparedBlock epoch))).epoch = none := by
  rw [stored_epoch, if_neg]
  rw [List.map_map, List.any_map, List.any_eq_true]
  rintro ⟨u, -, stores⟩
  have stores : storesOf p (maskUpdate p u) = true := stores
  rw [storesOf, maskUpdate] at stores
  split at stores
  · simp at stores
  · rename_i other
    exact other (of_decide_eq_true stores).2.2

end Stored
namespace ObliviousHistogram
variable {h h' g g' : ObliviousHistogram Z K A S V} {prf : Aes128} {keys : List UInt8 → Prop} {x : List UInt8}
  {marks : Nat → Bool} {phase : Phase} {present : Bool} [Add V] [Inhabited V]

/-- The least epoch of a payload in the tree. -/
def oldest (p : Vector UInt8 K) (h : ObliviousHistogram Z K A S V) : Option Nat := (mass (forget V) p h.contents).epoch

/-- Two trees of which the second has no block of `x`. While the phase is level the first
one counts none. -/
structure Tandem (prf : Aes128) (keys : List UInt8 → Prop) (x : List UInt8) (phase : Phase) (present : Bool)
    (h h' : ObliviousHistogram Z K A S V) : Prop where
  lock : Lockstep prf keys x h h'
  slots : slotsOf h'.trace = slotsOf h.trace
  sums : phase = .level → ∀ a a', h.autoResize = some a → h'.autoResize = some a' → a'.cSum = a.cSum
  stale : phase = .level → h.oldest (copyPrefix K x) ≠ some h.epoch.toNat
  present_iff : present = true ↔ h.oldest (copyPrefix K x) ≠ none
  masked : h'.oldest (copyPrefix K x) = none
  young : ∀ e, h.oldest (copyPrefix K x) = some e → e ≤ h.epoch.toNat
  epoch_le : h.epoch.toNat ≤ h.height
  emits : ∀ a, h.autoResize = some a → a.emitsGrowSignal = true
  pending : ∀ a, h.autoResize = some a → (a.pendingGrow = none ↔ phase ≠ .answered)
  off : h.autoResize = none → phase ≠ .answered

/-- Steps of the two trees whose transcripts drift, and that stay in tandem while the answers coincide. -/
def Drifted (prf : Aes128) (keys : List UInt8 → Prop) (x : List UInt8) (marks : Nat → Bool) (phase : Phase)
    (present : Bool) (h h' g g' : ObliviousHistogram Z K A S V) : Prop :=
  ∃ s s' slots slots', Shows marks h s slots g ∧ Shows marks h' s' slots' g' ∧ Drift phase s s' ∧
    (s.map Step.seen = s'.map Step.seen → Tandem prf keys x (phase.run s) present g g')

omit [Inhabited V] in
theorem Drifted.of_quiet {s : List (Step PublicEvent)} {slots slots' : Nat} (shows : Shows marks h s slots g)
    (shows' : Shows marks h' s slots' g') (quiet : ∀ e ∈ s, ∀ c above, e ≠ .query c above)
    (tandem : Tandem prf keys x (phase.run s) present g g') : Drifted prf keys x marks phase present h h' g g' :=
  ⟨s, s, slots, slots', shows, shows', .refl_of_quiet quiet, fun _ => tandem⟩

omit [Add V] [Inhabited V] in
theorem Shows.of_suffix (marks : Nat → Bool) (suffix : h.trace <:+ g.trace) : ∃ s slots, Shows marks h s slots g := by
  obtain ⟨new, same⟩ := suffix
  exact ⟨_, _, .of_append _ same.symm⟩

omit [Inhabited V] in
theorem Drifted.trans {m m' : ObliviousHistogram Z K A S V} {middle : Bool}
    (first : Drifted prf keys x marks phase middle h h' m m')
    (second : ∀ phase, Tandem prf keys x phase middle m m' → Drifted prf keys x marks phase present m m' g g')
    (suffix : m.trace <:+ g.trace) (suffix' : m'.trace <:+ g'.trace) : Drifted prf keys x marks phase present h h' g g' := by
  obtain ⟨s, s', i, i', hm, hm', drift, later⟩ := first
  by_cases same : s.map Step.seen = s'.map Step.seen
  · obtain ⟨t, t', j, j', hg, hg', drift', later'⟩ := second _ (later same)
    refine ⟨s ++ t, s' ++ t', _, _, hm.trans hg, hm'.trans hg', drift.append fun _ => drift', fun all => ?_⟩
    rw [List.map_append, List.map_append, same] at all
    rw [Phase.run_append]
    exact later' (List.append_cancel_left all)
  · obtain ⟨t, j, hg⟩ := Shows.of_suffix marks suffix
    obtain ⟨t', j', hg'⟩ := Shows.of_suffix marks suffix'
    exact ⟨s ++ t, s' ++ t', _, _, hm.trans hg, hm'.trans hg', drift.append fun all => absurd all same,
      fun all => absurd (drift.seen_prefix all) same⟩

section Evict

omit [Inhabited V] in
theorem Tandem.counted_iff (tandem : Tandem prf keys x .level present h h')
    (p : Vector UInt8 K) : Counted (keyed prf keys) h' p ↔ Counted (keyed prf keys) h p := by
  by_cases other : p = copyPrefix K x
  · subst other
    constructor
    · intro counted
      exact absurd (counted.2.symm.trans tandem.masked) (Option.some_ne_none _)
    · intro counted
      exact absurd counted.2 (tandem.stale rfl)
  · exact tandem.lock.counted other

/-- At level both evictions count the same. -/
theorem Tandem.evictCount_eq (sep : Separated prf K keys) (tandem : Tandem prf keys x .level present h h') :
    h'.evictCount = h.evictCount := by
  obtain ⟨payloads, nodup, count, mem⟩ := evictCount_spec tandem.lock.inv sep.identified sep.oneTag
  obtain ⟨payloads', nodup', count', mem'⟩ := evictCount_spec tandem.lock.inv' sep.identified sep.oneTag
  rw [← count, ← count']
  apply List.Perm.length_eq
  refine (List.perm_ext_iff_of_nodup nodup' nodup).mpr fun p => ?_
  rw [mem, mem', tandem.counted_iff]

omit [Add V] [Inhabited V] in
theorem evictSteps_shown (h : ObliviousHistogram Z K A S V) : ∀ e ∈ h.evictSteps, ∃ event, e = .shown event := by
  intro e he
  rw [evictSteps] at he
  split at he
  · simp only [List.cons_append, List.nil_append, List.mem_cons, List.not_mem_nil, or_false] at he
    rcases he with rfl | rfl | rfl <;> exact ⟨_, rfl⟩
  · simp only [List.append_nil, List.mem_cons, List.not_mem_nil, or_false] at he
    rcases he with rfl | rfl <;> exact ⟨_, rfl⟩

omit [Inhabited V] in
theorem Tandem.evictSteps_eq (tandem : Tandem prf keys x phase present h h') : h'.evictSteps = h.evictSteps := by
  rw [evictSteps, evictSteps, tandem.lock.height, tandem.lock.evictCtr, tandem.lock.sweepEnd]

omit [Inhabited V] in
/-- The accesses of two evictions in tandem, and what follows them. -/
theorem Tandem.drift_evict (_ : Tandem prf keys x phase present h h') {t t' : List (Step PublicEvent)}
    (drift : Drift phase t t') : Drift phase (h.evictSteps ++ t) (h.evictSteps ++ t') := by
  refine Drift.append (.refl_of_quiet fun e he c above same => ?_) fun _ => ?_
  · obtain ⟨event, shown⟩ := evictSteps_shown h e he
    exact absurd (shown.symm.trans same) (by simp)
  · rwa [Phase.run_shown phase (evictSteps_shown h)]

omit [Add V] [Inhabited V] in
/-- A growth asks for the public capacity. -/
theorem evaluateSignal_target {auto next : AutoResizeState} {signal : Option Nat}
    (evaluated : auto.evaluateSignal math Z = (signal, next)) :
    signal = if signal.isSome then some (effectiveTCapacity Z auto.config.tCapacity) else none := by
  rw [AutoResizeState.evaluateSignal] at evaluated
  obtain ⟨rfl, -⟩ := Prod.mk.inj evaluated.symm
  split <;> rfl

omit [Add V] [Inhabited V] in
theorem signal_eq {a a' next next' : AutoResizeState} {count count' : Nat} {signal signal' : Option Nat}
    (tCapacity : a'.config.tCapacity = a.config.tCapacity)
    (evaluated : (a.recordEviction count).evaluateSignal math Z = (signal, next))
    (evaluated' : (a'.recordEviction count').evaluateSignal math' Z = (signal', next'))
    (same : signal.isSome = signal'.isSome) : signal = signal' := by
  have first := evaluateSignal_target evaluated
  have second := evaluateSignal_target evaluated'
  simp only [AutoResizeState.recordEviction] at first second
  rw [first, second, ← same, tCapacity]

omit [Add V] [Inhabited V] in
theorem saturatingSucc_toNat {epoch : UInt8} (small : epoch.toNat ≤ 31) :
    (saturatingSucc epoch).toNat = epoch.toNat + 1 := by
  rw [saturatingSucc, if_neg]
  · have one : (1 : UInt8).toNat = 1 := rfl
    rw [UInt8.toNat_add, one, Nat.mod_eq_of_lt (by omega)]
  · rintro rfl
    exact absurd small (by decide)

/-- Two trees in tandem whose blocks move. -/
theorem Tandem.of_moved (tandem : Tandem prf keys x phase present h h') (moves : Reshuffle h g)
    (moves' : Reshuffle h' g') {phase' : Phase} (lock : Lockstep prf keys x g g')
    (slots : slotsOf g'.trace = slotsOf g.trace)
    (sums : phase' = .level → ∀ a a', g.autoResize = some a → g'.autoResize = some a' → a'.cSum = a.cSum)
    (stale : phase' = .level → h.oldest (copyPrefix K x) ≠ some g.epoch.toNat)
    (epoch_le : h.epoch.toNat ≤ g.epoch.toNat) (low : g.epoch.toNat ≤ g.height)
    (emits : ∀ a, g.autoResize = some a → a.emitsGrowSignal = true)
    (pending : ∀ a, g.autoResize = some a → (a.pendingGrow = none ↔ phase' ≠ .answered))
    (off : g.autoResize = none → phase' ≠ .answered) : Tandem prf keys x phase' present g g' := by
  have oldest : g.oldest (copyPrefix K x) = h.oldest (copyPrefix K x) :=
    congrArg Mass.epoch (moves.mass_eq tandem.lock.inv _)
  have oldest' : g'.oldest (copyPrefix K x) = h'.oldest (copyPrefix K x) :=
    congrArg Mass.epoch (moves'.mass_eq tandem.lock.inv' _)
  refine ⟨lock, slots, sums, fun level => oldest ▸ stale level, oldest ▸ tandem.present_iff,
    oldest'.trans tandem.masked, fun e he => ?_, low, emits, pending, off⟩
  exact (tandem.young e (oldest ▸ he)).trans epoch_le

/-- A growth of both trees leaves no statistics behind. -/
theorem Tandem.of_grown (tandem : Tandem prf keys x phase present h h') (moves : Reshuffle h g)
    (moves' : Reshuffle h' g') (lock : Lockstep prf keys x g g') (slots : slotsOf g'.trace = slotsOf g.trace)
    {a a' : AutoResizeState} (state : g.autoResize = some a) (state' : g'.autoResize = some a')
    (sum : a'.cSum = a.cSum) (emits : a.emitsGrowSignal = true) (quiet : a.pendingGrow = none)
    (height : g.height = h.height + 1) (epoch : g.epoch = saturatingSucc h.epoch) :
    Tandem prf keys x .level present g g' := by
  have small : h.epoch.toNat ≤ 31 := tandem.epoch_le.trans tandem.lock.inv.shape.height_le
  have next : g.epoch.toNat = h.epoch.toNat + 1 := by rw [epoch, saturatingSucc_toNat small]
  refine tandem.of_moved moves moves' lock slots (fun _ b b' on on' => ?_) (fun _ same => ?_) (by omega)
    (by rw [next, height]; exact Nat.succ_le_succ tandem.epoch_le) (fun b on => ?_) (fun b on => ?_)
    (fun off => absurd (state.symm.trans off) (Option.some_ne_none _))
  · obtain rfl := Option.some.inj (state.symm.trans on)
    obtain rfl := Option.some.inj (state'.symm.trans on')
    exact sum
  · have := tandem.young _ same
    omega
  · obtain rfl := Option.some.inj (state.symm.trans on)
    exact emits
  · obtain rfl := Option.some.inj (state.symm.trans on)
    constructor
    · intro _ level
      exact nomatch level
    · exact fun _ => quiet

/-- The statistics of a check, before the threshold is crossed. -/
theorem Tandem.near (sep : Separated prf K keys) (hx : keys x) (tandem : Tandem prf keys x phase present h h')
    {a a' : AutoResizeState} (before : h.autoResize = some a) (before' : h'.autoResize = some a')
    (pair : Paired h.height h.evictCtr (toLeaf (prfTag prf x) h.height) a a')
    (due : (a.recordEviction h.evictCount).shouldCheckEpoch = true) (opened : phase ≠ .answered) :
    phase.Near ((a.cSum + h.evictCount : Nat) : Int) ((a'.cSum + h'.evictCount : Nat) : Int) := by
  have le := tandem.lock.evictCount_le sep hx
  have le' := tandem.lock.symm.evictCount_le sep hx
  rw [tandem.lock.height, tandem.lock.evictCtr] at le'
  cases phase with
  | level => exact congrArg Nat.cast (by rw [tandem.evictCount_eq sep, tandem.sums rfl a a' before before'])
  | tainted =>
    have close := pair.sums_close tandem.lock.inv.shape.height_le le le' due
    exact ⟨by exact_mod_cast close.1, by exact_mod_cast close.2⟩
  | answered => exact absurd rfl opened

omit [Add V] [Inhabited V] in
/-- No new call. -/
theorem calls_same {s : List (Nat × Option Nat)} (calls : g.calls = h.calls ++ s)
    (signals : signalsOf g.trace = signalsOf h.trace) : s = [] := by
  rw [ObliviousHistogram.calls, signals, ← ObliviousHistogram.calls] at calls
  exact List.self_eq_append_right.mp calls

omit [Add V] [Inhabited V] in
/-- One new call. -/
theorem calls_one {s : List (Nat × Option Nat)} {c : Nat × Option Nat} (calls : g.calls = h.calls ++ s)
    (signals : signalsOf g.trace = c :: signalsOf h.trace) : s = [c] :=
  List.append_cancel_left (calls.symm.trans (calls_cons signals))

/-- Evictions before the next check. -/
theorem Tandem.evict_early (sameK : math'.rawK = math.rawK) (sep : Separated prf K keys) (hx : keys x)
    (tandem : Tandem prf keys x phase present h h') (run : h.evictAfterInsert math = .ok g)
    (run' : h'.evictAfterInsert math' = .ok g')
    (early : ∀ auto, h.autoResize = some auto → (auto.recordEviction h.evictCount).shouldCheckEpoch = false) :
    Drifted prf keys x marks phase present h h' g g' := by
  obtain ⟨tail, shows, checked⟩ := evictAfterInsert_shows marks run
  obtain ⟨tail', shows', checked'⟩ := evictAfterInsert_shows marks run'
  obtain ⟨s, s', calls, calls', -, later⟩ := tandem.lock.evict sameK sep hx run run'
  have early' : ∀ auto, h'.autoResize = some auto → (auto.recordEviction h'.evictCount).shouldCheckEpoch = false := by
    intro a' before'
    obtain ⟨a, before, pair⟩ := tandem.lock.symm.autoResize_some before'
    exact pair.due_eq.symm.trans (early a before)
  obtain ⟨rfl, after, height, epoch, signals⟩ := checked.of_early early
  obtain ⟨rfl, after', height', epoch', signals'⟩ := checked'.of_early early'
  rw [tandem.evictSteps_eq] at shows'
  have accesses : ∀ e ∈ h.evictSteps, ∃ event, e = .shown event := evictSteps_shown h
  rw [List.append_nil] at shows shows'
  have lock : Lockstep prf keys x g g' := later (by rw [calls_same calls signals, calls_same calls' signals'])
  refine .of_quiet shows shows' (fun e he c above same => ?_) ?_
  · obtain ⟨event, shown⟩ := accesses e he
    exact absurd (shown.symm.trans same) (by simp)
  rw [Phase.run_shown phase accesses]
  refine tandem.of_moved (evictAfterInsert_reshuffle tandem.lock.inv.shape.height_le run)
    (evictAfterInsert_reshuffle tandem.lock.inv'.shape.height_le run') lock
    (by rw [shows.slots, shows'.slots, tandem.slots]) (fun level a a' on on' => ?_)
    (fun level => epoch ▸ tandem.stale level) (by rw [epoch]) (by rw [epoch, height]; exact tandem.epoch_le)
    (fun a on => ?_) (fun a on => ?_) (fun off => tandem.off (Option.map_eq_none_iff.mp (after.symm.trans off)))
  · subst level
    rw [after] at on
    rw [after'] at on'
    obtain ⟨b, before, rfl⟩ := Option.map_eq_some_iff.mp on
    obtain ⟨b', before', rfl⟩ := Option.map_eq_some_iff.mp on'
    change b'.cSum + h'.evictCount = b.cSum + h.evictCount
    rw [tandem.evictCount_eq sep, tandem.sums rfl b b' before before']
  · rw [after] at on
    obtain ⟨b, before, rfl⟩ := Option.map_eq_some_iff.mp on
    exact tandem.emits b before
  · rw [after] at on
    obtain ⟨b, before, rfl⟩ := Option.map_eq_some_iff.mp on
    exact tandem.pending b before

section Due
variable {a a' next next' : AutoResizeState} {count count' : Nat} {signal signal' : Option Nat}

/-- Evictions that keep the height, with equal signals. -/
theorem Tandem.evict_kept (tandem : Tandem prf keys x phase present h h') (run : h.evictAfterInsert math = .ok g)
    (run' : h'.evictAfterInsert math' = .ok g') (lock : Lockstep prf keys x g g')
    (slots : slotsOf g.trace = slotsOf h.trace) (slots' : slotsOf g'.trace = slotsOf h'.trace)
    (before : h.autoResize = some a) (opened : phase ≠ .answered)
    (evaluated : (a.recordEviction count).evaluateSignal math Z = (signal, next))
    (evaluated' : (a'.recordEviction count').evaluateSignal math' Z = (signal', next'))
    (kept : a.deferred = true ∨ signal = none) {p p' : Option Nat}
    (state : g.autoResize = some { next with pendingGrow := p })
    (asked : p = if a.deferred && a.emitsGrowSignal then signal else a.pendingGrow)
    (state' : g'.autoResize = some { next' with pendingGrow := p' }) (height : g.height = h.height)
    (epoch : g.epoch = h.epoch) :
    Tandem prf keys x (phase.after (.query ((a.cSum + count : Nat) : Int) signal.isSome : Step PublicEvent)) present
      g g' := by
  obtain ⟨-, sum, -, -, -, emits, -⟩ := evaluateSignal_spec evaluated
  obtain ⟨-, sum', -, -, -, -, -⟩ := evaluateSignal_spec evaluated'
  have none : a.pendingGrow = none := (tandem.pending a before).mpr opened
  have answer : p = signal := by
    rw [asked, tandem.emits a before, Bool.and_true, none]
    rcases kept with deferred | quiet
    · rw [if_pos deferred]
    · rw [quiet]
      split <;> rfl
  refine tandem.of_moved (evictAfterInsert_reshuffle tandem.lock.inv.shape.height_le run)
    (evictAfterInsert_reshuffle tandem.lock.inv'.shape.height_le run') lock
    (slots'.trans (tandem.slots.trans slots.symm)) (fun _ b b' on on' => ?_) (fun level => ?_) (by rw [epoch])
    (by rw [epoch, height]; exact tandem.epoch_le) (fun b on => ?_) (fun b on => ?_)
    (fun off => absurd (state.symm.trans off) (Option.some_ne_none _))
  · obtain rfl := Option.some.inj (state.symm.trans on)
    obtain rfl := Option.some.inj (state'.symm.trans on')
    exact sum'.trans sum.symm
  · rw [epoch]
    apply tandem.stale
    cases signal with
    | none => exact level
    | some target => exact nomatch level
  · obtain rfl := Option.some.inj (state.symm.trans on)
    exact emits.trans (tandem.emits a before)
  · obtain rfl := Option.some.inj (state.symm.trans on)
    change p = Option.none ↔ _
    rw [answer]
    cases signal with
    | none => exact ⟨fun _ => opened, fun _ => rfl⟩
    | some target => exact ⟨fun no => absurd no (Option.some_ne_none _), fun no => absurd rfl no⟩

/-- Evictions that end in a growth of both trees. -/
theorem Tandem.evict_grown (tandem : Tandem prf keys x phase present h h') (run : h.evictAfterInsert math = .ok g)
    (run' : h'.evictAfterInsert math' = .ok g') (lock : Lockstep prf keys x g g')
    (slots : slotsOf g.trace = slotsOf h.trace) (slots' : slotsOf g'.trace = slotsOf h'.trace)
    (before : h.autoResize = some a) (opened : phase ≠ .answered)
    (evaluated : (a.recordEviction count).evaluateSignal math Z = (signal, next))
    (evaluated' : (a'.recordEviction count').evaluateSignal math' Z = (signal', next')) {n n' : Nat}
    (state : g.autoResize = some (next.regrown math Z A n))
    (state' : g'.autoResize = some (next'.regrown math' Z A n')) (height : g.height = h.height + 1)
    (epoch : g.epoch = saturatingSucc h.epoch) : Tandem prf keys x .level present g g' := by
  obtain ⟨-, sum, -, -, -, emits, quiet⟩ := evaluateSignal_spec evaluated
  obtain ⟨-, sum', -, -, -, -, -⟩ := evaluateSignal_spec evaluated'
  have none : a.pendingGrow = none := (tandem.pending a before).mpr opened
  exact tandem.of_grown (evictAfterInsert_reshuffle tandem.lock.inv.shape.height_le run)
    (evictAfterInsert_reshuffle tandem.lock.inv'.shape.height_le run') lock
    (slots'.trans (tandem.slots.trans slots.symm)) state state' (sum'.trans sum.symm)
    (emits.trans (tandem.emits a before)) (quiet.trans none) height epoch

omit [Add V] [Inhabited V] in
/-- A tree that is not deferred keeps no signal that has fired. -/
theorem not_fired_of_kept (same : a'.deferred = a.deferred) (kept : a.deferred = true ∨ signal = none)
    (immediate : a'.deferred = false) : ¬ signal.isSome = true := by
  rcases kept with deferred | rfl
  · rw [same, deferred] at immediate
    exact absurd immediate.symm Bool.false_ne_true
  · exact Bool.false_ne_true

end Due

/-- Evictions with a check. -/
theorem Tandem.evict_due (sameK : math'.rawK = math.rawK) (sep : Separated prf K keys) (hx : keys x)
    (tandem : Tandem prf keys x phase present h h') (run : h.evictAfterInsert math = .ok g)
    (run' : h'.evictAfterInsert math' = .ok g') {a : AutoResizeState} (before : h.autoResize = some a)
    (due : (a.recordEviction h.evictCount).shouldCheckEpoch = true) :
    Drifted prf keys x marks phase present h h' g g' := by
  obtain ⟨tail, shows, checked⟩ := evictAfterInsert_shows marks run
  obtain ⟨tail', shows', checked'⟩ := evictAfterInsert_shows marks run'
  obtain ⟨s, s', calls, calls', -, later⟩ := tandem.lock.evict sameK sep hx run run'
  obtain ⟨a', before', pair⟩ := tandem.lock.autoResize_some before
  have opened : phase ≠ .answered := by
    have quiet := ((shouldCheckEpoch_recordEviction a h.evictCount).mp due).1
    rw [tandem.emits a before] at quiet
    exact (tandem.pending a before).mp (quiet.resolve_left (by simp))
  have near : phase.Near ((a.cSum + h.evictCount : Nat) : Int) ((a'.cSum + h'.evictCount : Nat) : Int) :=
    tandem.near sep hx before before' pair due opened
  obtain ⟨signal, next, evaluated, signals, outcome⟩ := checked.of_due before due
  obtain ⟨signal', next', evaluated', signals', outcome'⟩ := checked'.of_due before' (pair.due_eq.trans due)
  have targets : signal.isSome = signal'.isSome → signal = signal' :=
    signal_eq pair.tCapacity evaluated evaluated'
  have locked : signal = signal' → Lockstep prf keys x g g' := fun same =>
    later (by rw [calls_one calls signals, calls_one calls' signals', same, List.map_singleton, List.map_singleton])
  have after : ∀ t : List (Step PublicEvent), phase.run (h.evictSteps ++ t) = phase.run t := fun t => by
    rw [Phase.run_append, Phase.run_shown phase (evictSteps_shown h)]
  rw [tandem.evictSteps_eq] at shows'
  rcases outcome with ⟨kept, rfl, state, height, epoch⟩ | ⟨immediate, fired, rfl, state, height, epoch⟩
  · rcases outcome' with ⟨kept', rfl, state', -⟩ | ⟨immediate', fired', rfl, -⟩
    · refine ⟨_, _, _, _, shows, shows', tandem.drift_evict ⟨near, fun _ => trivial⟩,
        fun same => ?_⟩
      have same : signal.isSome = signal'.isSome := by simpa [Step.seen] using same
      rw [after]
      exact tandem.evict_kept run run' (locked (targets same)) shows.slots shows'.slots before opened evaluated
        evaluated' kept state rfl state' height epoch
    · refine ⟨_, _, _, _, shows, shows', tandem.drift_evict ⟨near, fun same => ?_⟩,
        fun same => ?_⟩
      · -- a deferred tree does not grow at once
        exact absurd (by simpa [Step.seen] using same) (not_fired_of_kept pair.deferred kept immediate')
      · have lengths := congrArg List.length same
        simp at lengths
  · rcases outcome' with ⟨kept', rfl, -⟩ | ⟨-, fired', rfl, state', -⟩
    · refine ⟨_, _, _, _, shows, shows', tandem.drift_evict ⟨near, fun same => ?_⟩,
        fun same => ?_⟩
      · have same : true = signal'.isSome := by simpa [Step.seen] using same
        exact absurd same.symm (not_fired_of_kept pair.deferred.symm kept' immediate)
      · have lengths := congrArg List.length same
        simp at lengths
    · refine ⟨_, _, _, _, shows, shows', tandem.drift_evict
        ⟨near, fun _ => ⟨trivial, fun _ => trivial⟩⟩, fun _ => ?_⟩
      rw [after]
      exact tandem.evict_grown run run' (locked (targets (fired.trans fired'.symm))) shows.slots shows'.slots before
        opened evaluated evaluated' state state' height epoch

/-- One eviction of both trees. -/
theorem Tandem.evict (sameK : math'.rawK = math.rawK) (sep : Separated prf K keys) (hx : keys x)
    (tandem : Tandem prf keys x phase present h h') (run : h.evictAfterInsert math = .ok g)
    (run' : h'.evictAfterInsert math' = .ok g') : Drifted prf keys x marks phase present h h' g g' := by
  by_cases early : ∀ auto, h.autoResize = some auto → (auto.recordEviction h.evictCount).shouldCheckEpoch = false
  · exact tandem.evict_early sameK sep hx run run' early
  · obtain ⟨auto, late⟩ := not_forall.mp early
    obtain ⟨before, due⟩ := Classical.not_imp.mp late
    exact tandem.evict_due sameK sep hx run run' before (Bool.eq_true_of_not_eq_false due)

end Evict
section Insert

omit [Inhabited V] in
theorem oldest_filled {known : UInt64 × Vector UInt8 K → Prop} {count : Nat} {blocks : List (OramBlock K V)}
    (filled : Filled known h count blocks g) (p : Vector UInt8 K) :
    g.oldest p = Option.merge min (mass (forget V) p blocks).epoch (h.oldest p) := by
  rw [oldest, mass_perm p filled.contents, mass_append, mass_reals, Mass.epoch_add, ← oldest]

omit [Add V] [Inhabited V] in
theorem slotSteps_eq {start : Nat} {slots : List Bool}
    (marked : ∀ i < slots.length, marks (start + i) = slots.getD i false) :
    slotSteps marks start slots.length = slots.map .slot := by
  apply List.ext_getElem
  · rw [slotSteps, List.length_map, List.length_map, List.length_range]
  · intro i hi hi'
    rw [List.length_map] at hi'
    rw [List.getElem_map]
    simp only [slotSteps, List.getElem_map, List.getElem_range]
    rw [marked i hi', List.getD_eq_getElem _ _ hi']

/-- What is stored now is no older than what was there. -/
theorem merge_min_le {here : Option Nat} {stored : Bool} {epoch e : Nat} (young : ∀ e', here = some e' → e' ≤ epoch)
    (merged : Option.merge min (if stored then some epoch else none) here = some e) : e ≤ epoch := by
  cases here with
  | none =>
    cases stored with
    | false => exact absurd merged.symm (Option.some_ne_none e)
    | true => exact (Option.some.inj merged).symm.le
  | some e' =>
    have young := young e' rfl
    cases stored with
    | false => exact Option.some.inj merged ▸ young
    | true =>
      have least : min epoch e' = e := Option.some.inj merged
      omega

/-- What is there from an earlier epoch stays the oldest. -/
theorem merge_min_ne {here : Option Nat} {stored : Bool} {epoch : Nat} (young : ∀ e, here = some e → e ≤ epoch)
    (stale : here ≠ some epoch) (present : stored = true → here ≠ none) :
    Option.merge min (if stored then some epoch else none) here ≠ some epoch := by
  intro merged
  cases stored with
  | false =>
    cases here with
    | none => exact absurd merged.symm (Option.some_ne_none epoch)
    | some e => exact stale merged
  | true =>
    obtain ⟨e, rfl⟩ := Option.ne_none_iff_exists'.mp (present rfl)
    have young := young e rfl
    have least : min epoch e = epoch := Option.some.inj merged
    exact stale (congrArg some (by omega))

omit [Inhabited V] in
/-- Slots of which the first tree stores some for `x` and the second one none. -/
theorem Tandem.filled (tandem : Tandem prf keys x phase present h h') {count : Nat}
    {blocks blocks' : List (OramBlock K V)} (filled : Filled (keyed prf keys) h count blocks g)
    (filled' : Filled (keyed prf keys) h' count blocks' g')
    (same : ∀ p ≠ copyPrefix K x, mass (forget V) p blocks' = mass (forget V) p blocks)
    (shows : Shows marks h (slotSteps marks (slotsOf h.trace) count) count g)
    (shows' : Shows marks h' (slotSteps marks (slotsOf h'.trace) count) count g') {stored : List Bool}
    (length : stored.length = count)
    (epochs : (mass (forget V) (copyPrefix K x) blocks).epoch = if stored.any id then some h.epoch.toNat else none)
    (masked : (mass (forget V) (copyPrefix K x) blocks').epoch = none)
    (marked : ∀ i < count, marks (slotsOf h.trace + i) = (firsts present stored).getD i false) :
    Drifted prf keys x marks phase (present || stored.any id) h h' g g' := by
  have steps : slotSteps marks (slotsOf h.trace) count = (firsts present stored).map .slot := by
    rw [← length, ← length_firsts present]
    exact slotSteps_eq fun i hi => marked i (by rwa [length_firsts, length] at hi)
  rw [tandem.slots] at shows'
  rw [steps] at shows shows'
  have oldest := oldest_filled filled (copyPrefix K x)
  have oldest' := oldest_filled filled' (copyPrefix K x)
  rw [epochs] at oldest
  rw [masked, tandem.masked] at oldest'
  refine .of_quiet shows shows' (fun e he c above query => ?_) ?_
  · obtain ⟨marked, -, slot⟩ := List.mem_map.mp he
    exact absurd (slot.trans query) (by simp)
  rw [Phase.run_slots, any_firsts]
  refine ⟨tandem.lock.filled filled filled' same, ?_, fun level a a' on on' => ?_, fun level => ?_, ?_, oldest',
    fun e he => ?_, ?_, fun a on => ?_, fun a on => ?_, fun off => ?_⟩
  · rw [shows.slots, shows'.slots, tandem.slots]
  · rw [filled.autoResize] at on
    rw [filled'.autoResize] at on'
    exact tandem.sums (Phase.mark_eq_level.mp level).1 a a' on on'
  · obtain ⟨before, clean⟩ := Phase.mark_eq_level.mp level
    rw [oldest, filled.epoch]
    refine merge_min_ne tandem.young (tandem.stale before) fun stores => tandem.present_iff.mp ?_
    -- a first update would have marked its slot
    rwa [stores, Bool.true_and, Bool.not_eq_false'] at clean
  · rw [oldest, Bool.or_eq_true, tandem.present_iff]
    cases stored.any id <;> cases h.oldest (copyPrefix K x) <;> simp [Option.merge]
  · rw [oldest] at he
    rw [filled.epoch]
    exact merge_min_le tandem.young he
  · rw [filled.epoch, filled.height]
    exact tandem.epoch_le
  · rw [filled.autoResize] at on
    exact tandem.emits a on
  · rw [filled.autoResize] at on
    rw [tandem.pending a on]
    exact (Phase.mark_answered phase _).symm.not
  · rw [filled.autoResize] at off
    exact (Phase.mark_answered phase _).not.mpr (tandem.off off)

/-- An eviction of both trees if it is due. -/
theorem Tandem.evictIf (sameK : math'.rawK = math.rawK) (sep : Separated prf K keys) (hx : keys x)
    (tandem : Tandem prf keys x phase present h h') {due : Prop} [Decidable due]
    (run : (if due then h.evictAfterInsert math else .ok h) = .ok g)
    (run' : (if due then h'.evictAfterInsert math' else .ok h') = .ok g') :
    Drifted prf keys x marks phase present h h' g g' := by
  split at run
  · rename_i here
    rw [if_pos here] at run'
    exact tandem.evict sameK sep hx run run'
  · rename_i here
    rw [if_neg here] at run'
    simp only [Except.ok.injEq] at run run'
    subst run run'
    exact .of_quiet (.of_trace rfl) (.of_trace rfl) (by simp) tandem

/-- The marks of the slots to come. -/
def Marked (marks : Nat → Bool) (start : Nat) (slots : List Bool) : Prop :=
  ∀ i < slots.length, marks (start + i) = slots.getD i false

omit [Add V] [Inhabited V] in
theorem Marked.split {start : Nat} {s t : List Bool} (marked : Marked marks start (s ++ t)) :
    Marked marks start s ∧ Marked marks (start + s.length) t := by
  constructor
  · intro i hi
    rw [marked i (by rw [List.length_append]; omega), List.getD_append _ _ _ _ hi]
  · intro i hi
    rw [Nat.add_assoc, marked (s.length + i) (by rw [List.length_append]; omega),
      List.getD_append_right _ _ _ _ (Nat.le_add_right _ _), Nat.add_sub_cancel_left]

/-- A batch and the same batch with the slots of `x` masked out. -/
theorem Tandem.batch (sameK : math'.rawK = math.rawK) (sep : Separated prf K keys) (hx : keys x)
    (tandem : Tandem prf keys x phase present h h') {updates : List (PreparedUpdate K V)}
    (knows : KnownUpdates (keyed prf keys) updates)
    (marked : Marked marks (slotsOf h.trace) (firsts present (updates.map (storesOf (copyPrefix K x)))))
    (run : h.appendPreparedMaskedBatch math updates = .ok g)
    (run' : h'.appendPreparedMaskedBatch math' (updates.map (maskUpdate (copyPrefix K x))) = .ok g') :
    Drifted prf keys x marks phase (present || (updates.map (storesOf (copyPrefix K x))).any id) h h' g g' := by
  induction hn : updates.length using Nat.strong_induction_on generalizing h h' updates phase present with
  | _ n ih =>
    by_cases none : updates = []
    · rw [none, appendPreparedMaskedBatch, dif_pos rfl, Except.ok.injEq] at run
      rw [none, List.map_nil, appendPreparedMaskedBatch, dif_pos rfl, Except.ok.injEq] at run'
      subst run run'
      rw [none, List.map_nil, List.any_nil, Bool.or_false]
      exact .of_quiet (.of_trace rfl) (.of_trace rfl) (by simp) tandem
    have knows' := maskUpdate_known (q := copyPrefix K x) knows
    have lock := tandem.lock
    obtain ⟨progress, within, m, e, filled, shows, evicted, run⟩ := batch_shows marks lock.inv knows none run
    obtain ⟨-, -, m', e', filled', shows', evicted', run'⟩ := batch_shows marks lock.inv' knows'
      (by simpa using none) run'
    rw [List.length_map, lock.interval, lock.chunkLen, ← List.map_take, lock.epoch] at filled'
    rw [List.length_map, lock.interval, lock.chunkLen] at shows'
    rw [List.length_map, lock.interval, lock.chunkLen, ← List.map_drop] at run'
    generalize h.chunkLen h.currentEvictInterval updates.length = count at *
    have cut : updates.map (storesOf (copyPrefix K x)) = (updates.take count).map (storesOf (copyPrefix K x)) ++
        (updates.drop count).map (storesOf (copyPrefix K x)) := by
      rw [← List.map_append, List.take_append_drop]
    rw [cut, firsts_append] at marked
    obtain ⟨here, later⟩ := marked.split
    rw [length_firsts, List.length_map, List.length_take_of_le within] at later
    have length : ((updates.take count).map (storesOf (copyPrefix K x))).length = count := by
      rw [List.length_map, List.length_take_of_le within]
    have mlock := lock.filled filled filled' fun p hp => mass_maskUpdate hp h.epoch (updates.take count)
    have inserted := tandem.filled filled filled' (fun p hp => mass_maskUpdate hp h.epoch (updates.take count)) shows
      shows' length (stored_epoch _ _ _) (stored_masked _ _ _) fun i hi => here i (by rwa [length_firsts, length])
    rw [lock.interval, mlock.appendCtr] at evicted'
    have moves := evictIf_reshuffle mlock.inv.shape.height_le evicted
    have moves' := evictIf_reshuffle mlock.inv'.shape.height_le evicted'
    have rest : KnownUpdates (keyed prf keys) (updates.drop count) := fun u hu => knows u (List.mem_of_mem_drop hu)
    have suffix := (appendPreparedMaskedBatch_inv (moves.inv mlock.inv) rest run).2.2
    have suffix' := (appendPreparedMaskedBatch_inv (moves'.inv mlock.inv') (maskUpdate_known rest) run').2.2
    have shorter : (updates.drop count).length < n := by
      have := List.length_pos_iff.mpr none
      rw [List.length_drop]
      omega
    have slots : slotsOf e.trace = slotsOf h.trace + count := (evictIf_slots evicted).trans shows.slots
    rw [cut, List.any_append, ← Bool.or_assoc]
    refine inserted.trans (fun phase tandem => (tandem.evictIf sameK sep hx evicted evicted').trans
      (fun phase tandem => ih _ shorter tandem rest (slots ▸ later) run run' rfl) suffix suffix')
      (moves.trace.trans suffix) (moves'.trace.trans suffix')

omit [Inhabited V] in
/-- What one update stores for `x`. -/
theorem append_epoch (sep : Separated prf K keys) (hx : keys x) {key : List UInt8} (hkey : keys key) (epoch : UInt8)
    (val : V) : (mass (forget V) (copyPrefix K x) [⟨prfTag prf key, epoch, val, copyPrefix K key⟩]).epoch =
      if [decide (key = x)].any id then some epoch.toNat else none := by
  rw [mass_cons, mass_nil, add_zero, weight_epoch, List.any_cons, List.any_nil, Bool.or_false, id]
  by_cases same : key = x
  · rw [if_pos ⟨OramBlock.isReal_iff.mpr (sep.tag_ne_zero key hkey), by rw [same]⟩, if_pos (decide_eq_true same)]
  · rw [if_neg fun both => same (sep.prefix_inj key x hkey hx both.2), if_neg (by simpa using same)]

/-- `append`, masked out in the second run if the key is `x`. -/
theorem Tandem.append (sameK : math'.rawK = math.rawK) (sep : Separated prf K keys) (hx : keys x)
    (tandem : Tandem prf keys x phase present h h') {key : List UInt8} (hkey : keys key) {val : V}
    (marked : Marked marks (slotsOf h.trace) (firsts present [decide (key = x)]))
    (run : h.append math key val = .ok g)
    {out : Option V} (run' : h'.step math' ((TreeOp.append key val).mask prf x) = .ok (out, g')) :
    Drifted prf keys x marks phase (present || decide (key = x)) h h' g g' := by
  have lock := tandem.lock
  rw [ObliviousHistogram.append, lock.prf_eq] at run
  obtain ⟨m, filled, shows, evicted⟩ := addPreparedInner_shows marks lock.inv (fun _ => ⟨key, hkey, rfl⟩) run
  have stored := append_epoch sep hx hkey h.epoch val
  have finish : ∀ (m' : ObliviousHistogram Z K A S V) (blocks : List (OramBlock K V)),
      Filled (keyed prf keys) h' 1 blocks m' → Shows marks h' (slotSteps marks (slotsOf h'.trace) 1) 1 m' →
      (if h'.currentEvictInterval ∣ m'.appendCtr then m'.evictAfterInsert math' else .ok m') = .ok g' →
      (∀ p ≠ copyPrefix K x, mass (forget V) p blocks =
        mass (forget V) p [⟨prfTag prf key, h.epoch, val, copyPrefix K key⟩]) →
      (mass (forget V) (copyPrefix K x) blocks).epoch = none →
      Drifted prf keys x marks phase (present || decide (key = x)) h h' g g' := by
    intro m' blocks filled' shows' evicted' same masked
    have mlock := lock.filled filled filled' same
    rw [lock.interval, mlock.appendCtr] at evicted'
    have inserted := tandem.filled filled filled' same shows shows' rfl stored masked fun i hi =>
      marked i (by rwa [length_firsts])
    rw [List.any_cons, List.any_nil, Bool.or_false, id] at inserted
    exact inserted.trans (fun phase tandem => tandem.evictIf sameK sep hx evicted evicted')
      (evictIf_reshuffle mlock.inv.shape.height_le evicted).trace
      (evictIf_reshuffle mlock.inv'.shape.height_le evicted').trace
  by_cases masked : key = x
  · rw [TreeOp.mask, if_pos masked] at run'
    obtain ⟨r, hr, same⟩ := map_ok run'
    obtain ⟨-, rfl⟩ := Prod.mk.inj same
    obtain ⟨progress, -, m', e', filled', shows', evicted', rest⟩ := batch_shows marks lock.inv'
      (fun u hu on => by
        rw [List.mem_singleton.mp hu] at on
        simp at on) (List.cons_ne_nil _ _) hr
    have one : h'.chunkLen h'.currentEvictInterval [(prfTag prf key, val, copyPrefix K key, (0 : UInt8))].length =
        1 := by
      refine Nat.le_antisymm ?_ progress
      exact Nat.min_le_left _ _
    rw [one] at filled' shows' rest
    have last : e' = g' := by
      rw [List.drop_one, List.tail_cons, appendPreparedMaskedBatch, dif_pos rfl, Except.ok.injEq] at rest
      exact rest
    have nothing : ∀ p, mass (forget V) p (([(prfTag prf key, val, copyPrefix K key, (0 : UInt8))].take 1).map
        (preparedBlock h'.epoch)) = 0 := fun p => by
      rw [List.take_succ_cons, List.take_zero, List.map_singleton, preparedBlock_masked, mass_cons, mass_nil,
        weight_dummy rfl, add_zero]
    refine finish m' _ filled' shows' (last ▸ evicted') (fun p hp => ?_) ?_
    · rw [nothing, mass_cons, mass_nil, weight_other, add_zero]
      exact fun same => hp (same.symm.trans (by rw [masked]))
    · rw [nothing]
      rfl
  · rw [TreeOp.mask, if_neg masked] at run'
    obtain ⟨r, hr, same⟩ := map_ok run'
    obtain ⟨-, rfl⟩ := Prod.mk.inj same
    rw [ObliviousHistogram.append, lock.prf_eq'] at hr
    obtain ⟨m', filled', shows', evicted'⟩ := addPreparedInner_shows marks lock.inv'
      (fun _ => ⟨key, hkey, rfl⟩) hr
    refine finish m' _ filled' shows' evicted' (fun p _ => ?_) ?_
    · rw [lock.epoch]
    · rw [lock.epoch, stored, List.any_cons, List.any_nil, Bool.or_false, id, if_neg (by simpa using masked)]

end Insert
section Operations

omit [Inhabited V] in
/-- Operations that leave the counters and the estimator alone. -/
theorem Tandem.still (tandem : Tandem prf keys x phase present h h') {later : Bool} (lock : Lockstep prf keys x g g')
    (slots : slotsOf g.trace = slotsOf h.trace) (slots' : slotsOf g'.trace = slotsOf h'.trace)
    (height : g.height = h.height) (epoch : g.epoch = h.epoch) (autoResize : g.autoResize = h.autoResize)
    (autoResize' : g'.autoResize = h'.autoResize)
    (oldest : g.oldest (copyPrefix K x) = none ∨ g.oldest (copyPrefix K x) = h.oldest (copyPrefix K x))
    (later_iff : later = true ↔ g.oldest (copyPrefix K x) ≠ none) (masked : g'.oldest (copyPrefix K x) = none) :
    Tandem prf keys x phase later g g' := by
  refine ⟨lock, slots'.trans (tandem.slots.trans slots.symm), fun level a a' on on' => ?_, fun level => ?_, later_iff,
    masked, fun e he => ?_, ?_, fun a on => ?_, fun a on => ?_, fun off => ?_⟩
  · exact tandem.sums level a a' (autoResize.symm.trans on) (autoResize'.symm.trans on')
  · rw [epoch]
    rcases oldest with gone | same
    · rw [gone]
      exact fun no => absurd no.symm (Option.some_ne_none _)
    · exact same ▸ tandem.stale level
  · rw [epoch]
    rcases oldest with gone | same
    · exact absurd (he.symm.trans gone) (Option.some_ne_none _)
    · exact tandem.young e (same.symm.trans he)
  · rw [epoch, height]
    exact tandem.epoch_le
  · exact tandem.emits a (autoResize.symm.trans on)
  · exact tandem.pending a (autoResize.symm.trans on)
  · exact tandem.off (autoResize.symm.trans off)

theorem Tandem.read (sep : Separated prf K keys) (tandem : Tandem prf keys x phase present h h')
    {key : List UInt8} (hkey : keys key) (hx : keys x) {v v' : V} (run : h.readTotal key = .ok (v, g))
    (run' : h'.readTotal key = .ok (v', g')) :
    Drifted prf keys x marks phase (present && decide (key ≠ x)) h h' g g' := by
  obtain ⟨s, s', calls, calls', -, later⟩ := tandem.lock.read sep hkey run run'
  have lock := tandem.lock
  rw [readTotal, lock.prf_eq] at run
  rw [readTotal, lock.prf_eq'] at run'
  have still := readPreparedTotal_still run
  have still' := readPreparedTotal_still run'
  have shows := readPreparedTotal_shows marks run
  have shows' := readPreparedTotal_shows marks run'
  rw [lock.height] at shows'
  have leaf : ∀ (height : Nat) (t : UInt64), keyed prf keys (t, copyPrefix K key) →
      toLeaf t height = toLeaf (prfTag prf key) height := fun height t known => by
    rw [sep.covers hkey known]
  have oldest : g.oldest (copyPrefix K x) = if key = x then none else h.oldest (copyPrefix K x) := by
    rw [ObliviousHistogram.oldest, readPreparedTotal_mass lock.inv (mass_rest lock.inv (leaf _)) run]
    by_cases same : key = x
    · rw [if_pos (by rw [same]), if_pos same]
      rfl
    · rw [if_neg fun both => same (sep.prefix_inj x key hx hkey both).symm, if_neg same]
      rfl
  have masked : g'.oldest (copyPrefix K x) = none := by
    rw [ObliviousHistogram.oldest, readPreparedTotal_mass lock.inv' (mass_rest lock.inv' (leaf _)) run']
    split
    · rfl
    · exact tandem.masked
  have nothing : s.map Prod.snd = s'.map Prod.snd := by
    rw [calls_same calls still.signals, calls_same calls' still'.signals]
  refine .of_quiet shows shows' (by simp) (tandem.still (later nothing) shows.slots shows'.slots still.height still.epoch
    still.autoResize still'.autoResize ?_ ?_ masked)
  · rw [oldest]
    split
    · exact .inl rfl
    · exact .inr rfl
  · rw [oldest, Bool.and_eq_true, tandem.present_iff, decide_eq_true_eq]
    by_cases same : key = x <;> simp [same]

theorem Tandem.readDummy (tandem : Tandem prf keys x phase present h h') {draw : Nat}
    (run : h.readDummy draw = .ok g) (run' : h'.readDummy draw = .ok g') :
    Drifted prf keys x marks phase present h h' g g' := by
  obtain ⟨s, s', calls, calls', -, later⟩ := tandem.lock.readDummy run run'
  have still := readDummy_still run
  have still' := readDummy_still run'
  have shows := readDummy_shows marks run
  have shows' := readDummy_shows marks run'
  rw [tandem.lock.height] at shows'
  have oldest : g.oldest (copyPrefix K x) = h.oldest (copyPrefix K x) :=
    congrArg Mass.epoch ((readDummy_reshuffle run).mass_eq tandem.lock.inv _)
  have oldest' : g'.oldest (copyPrefix K x) = h'.oldest (copyPrefix K x) :=
    congrArg Mass.epoch ((readDummy_reshuffle run').mass_eq tandem.lock.inv' _)
  have nothing : s.map Prod.snd = s'.map Prod.snd := by
    rw [calls_same calls still.signals, calls_same calls' still'.signals]
  exact .of_quiet shows shows' (by simp) (tandem.still (later nothing) shows.slots shows'.slots still.height still.epoch
    still.autoResize still'.autoResize (.inr oldest) (oldest ▸ tandem.present_iff) (oldest'.trans tandem.masked))

/-- The coordinator's growth of both trees, if a check has asked for it. -/
theorem Tandem.handleDeferred (sameK : math'.rawK = math.rawK) (tandem : Tandem prf keys x phase present h h')
    (run : h.handleDeferredResize math = .ok g) (run' : h'.handleDeferredResize math' = .ok g') :
    Drifted prf keys x marks phase present h h' g g' := by
  obtain ⟨s, s', calls, calls', -, later⟩ := tandem.lock.handleDeferred sameK run run'
  obtain ⟨a, before, outcome⟩ := handleDeferredResize_spec run
  obtain ⟨a', before', outcome'⟩ := handleDeferredResize_spec run'
  have pending : a'.pendingGrow = a.pendingGrow := by
    obtain ⟨b, same, pair⟩ := tandem.lock.autoResize_some before
    rw [Option.some.inj (before'.symm.trans same)]
    exact pair.pendingGrow
  rcases outcome with ⟨quiet, rfl⟩ | ⟨target, fired, run⟩
  · rcases outcome' with ⟨-, rfl⟩ | ⟨target', fired', -⟩
    · exact .of_quiet (.of_trace rfl) (.of_trace rfl) (by simp) tandem
    · rw [← pending, fired'] at quiet
      exact nomatch quiet
  · rcases outcome' with ⟨quiet', -⟩ | ⟨target', -, run'⟩
    · rw [pending, fired] at quiet'
      exact nomatch quiet'
    · have grown := applyDeferredAutoResizeGrow_grown run
      have grown' := applyDeferredAutoResizeGrow_grown run'
      have shows := applyDeferredAutoResizeGrow_shows marks run
      have shows' := applyDeferredAutoResizeGrow_shows marks run'
      have state : g.autoResize = some (a.resetCounters.regrown math Z A (h.height + 1)) := by
        have after := grown.autoResize
        simp only [before, Option.map_some] at after
        exact after
      have state' : g'.autoResize = some (a'.resetCounters.regrown math' Z A (h'.height + 1)) := by
        have after := grown'.autoResize
        simp only [before', Option.map_some] at after
        exact after
      have nothing : s.map Prod.snd = s'.map Prod.snd := by
        rw [calls_same calls grown.signals, calls_same calls' grown'.signals]
      refine .of_quiet shows shows' (by simp) ?_
      exact tandem.of_grown (applyDeferredAutoResizeGrow_reshuffle run) (applyDeferredAutoResizeGrow_reshuffle run')
        (later nothing) (by rw [shows.slots, shows'.slots, tandem.slots]) state state' rfl (tandem.emits a before) rfl
        grown.height grown.epoch

omit [Inhabited V] in
/-- Auto-resize is switched on in both trees. -/
theorem Tandem.configure (sameK : math'.rawK = math.rawK) (tandem : Tandem prf keys x phase present h h')
    (off : h.autoResize = none) {cfg : AutoResizeConfig} {deferChecks : Bool}
    (run : h.configureAutoResize math cfg deferChecks true = .ok g)
    (run' : h'.configureAutoResize math' cfg deferChecks true = .ok g') :
    Drifted prf keys x marks phase present h h' g g' := by
  obtain ⟨s, s', calls, calls', -, later⟩ := tandem.lock.configure sameK run run'
  obtain ⟨sampler, -, -, rfl⟩ := configureAutoResize_spec run
  obtain ⟨sampler', -, -, rfl⟩ := configureAutoResize_spec run'
  have nothing : s.map Prod.snd = s'.map Prod.snd := by
    rw [calls_same calls rfl, calls_same calls' rfl]
  refine .of_quiet (.of_trace rfl) (.of_trace rfl) (by simp) ⟨later nothing, tandem.slots, fun _ a a' on on' => ?_,
    tandem.stale, tandem.present_iff, tandem.masked, tandem.young, tandem.epoch_le, fun a on => ?_, fun a on => ?_,
    fun off => absurd off (Option.some_ne_none _)⟩
  · obtain rfl := Option.some.inj on
    obtain rfl := Option.some.inj on'
    rfl
  · obtain rfl := Option.some.inj on
    rfl
  · obtain rfl := Option.some.inj on
    exact ⟨fun _ => tandem.off off, fun _ => rfl⟩

/-- One operation of the first run and its masked form of the second. -/
theorem Tandem.step (sameK : math'.rawK = math.rawK) (sep : Separated prf K keys) (hx : keys x)
    (tandem : Tandem prf keys x phase present h h') {op : TreeOp K V} (tracked : op.Tracked prf keys)
    (routine : op.Routine) (marked : Marked marks (slotsOf h.trace) (firsts present (op.stores x))) {out out' : Option V}
    (run : h.step math op = .ok (out, g)) (run' : h'.step math' (op.mask prf x) = .ok (out', g')) :
    Drifted prf keys x marks phase (op.leaves x present) h h' g g' := by
  cases op with
  | append key val =>
    obtain ⟨r, hr, same⟩ := map_ok run
    obtain ⟨-, rfl⟩ := Prod.mk.inj same
    have one : [decide (key = x)].any id = decide (key = x) := Bool.or_false _
    rw [TreeOp.leaves, TreeOp.stores, one]
    · exact tandem.append sameK sep hx tracked marked hr run'
    · exact fun _ no => nomatch no
  | appendBatch updates =>
    obtain ⟨r, hr, same⟩ := map_ok run
    obtain ⟨r', hr', same'⟩ := map_ok run'
    obtain ⟨-, rfl⟩ := Prod.mk.inj same
    obtain ⟨-, rfl⟩ := Prod.mk.inj same'
    exact tandem.batch sameK sep hx tracked marked hr hr'
  | readTotal key =>
    obtain ⟨⟨v, r⟩, hr, run⟩ := bind_ok run
    obtain ⟨⟨v', r'⟩, hr', run'⟩ := bind_ok run'
    simp only [pure, Except.pure, Except.ok.injEq, Prod.mk.injEq] at run run'
    obtain ⟨-, rfl⟩ := run
    obtain ⟨-, rfl⟩ := run'
    exact tandem.read sep tracked hx hr hr'
  | readDummy draw =>
    obtain ⟨r, hr, same⟩ := map_ok run
    obtain ⟨r', hr', same'⟩ := map_ok run'
    obtain ⟨-, rfl⟩ := Prod.mk.inj same
    obtain ⟨-, rfl⟩ := Prod.mk.inj same'
    rw [show (TreeOp.readDummy draw : TreeOp K V).leaves x present = present from Bool.or_false _]
    exact tandem.readDummy hr hr'
  | flush =>
    simp only [ObliviousHistogram.step, TreeOp.mask, Except.ok.injEq, Prod.mk.injEq] at run run'
    obtain ⟨-, rfl⟩ := run
    obtain ⟨-, rfl⟩ := run'
    rw [show (TreeOp.flush : TreeOp K V).leaves x present = present from Bool.or_false _]
    exact .of_quiet (.of_trace rfl) (.of_trace rfl) (by simp) tandem
  | handleDeferredResize =>
    obtain ⟨r, hr, same⟩ := map_ok run
    obtain ⟨r', hr', same'⟩ := map_ok run'
    obtain ⟨-, rfl⟩ := Prod.mk.inj same
    obtain ⟨-, rfl⟩ := Prod.mk.inj same'
    rw [show (TreeOp.handleDeferredResize : TreeOp K V).leaves x present = present from Bool.or_false _]
    exact tandem.handleDeferred sameK hr hr'
  | grow | enableAutoResize | enableDeferredAutoResize | takeDeferredSignal | applyDeferredGrow => exact routine.elim

omit [Add V] [Inhabited V] in
theorem length_stores (x : List UInt8) (op : TreeOp K V) : (op.stores x).length = op.slots := by
  cases op with
  | appendBatch updates => exact List.length_map _
  | _ => rfl

theorem step_slots (inv : h.Inv fun _ => True) {op : TreeOp K V} (routine : op.Routine) {out : Option V}
    (run : h.step math op = .ok (out, g)) : slotsOf g.trace = slotsOf h.trace + op.slots := by
  cases op with
  | append key val =>
    obtain ⟨r, hr, same⟩ := map_ok run
    obtain ⟨-, rfl⟩ := Prod.mk.inj same
    obtain ⟨m, -, shows, evicted⟩ := addPreparedInner_shows (fun _ => false) inv (fun _ => trivial) hr
    exact (evictIf_slots evicted).trans shows.slots
  | appendBatch updates =>
    obtain ⟨r, hr, same⟩ := map_ok run
    obtain ⟨-, rfl⟩ := Prod.mk.inj same
    exact appendPreparedMaskedBatch_slots inv hr
  | readTotal key =>
    obtain ⟨⟨v, r⟩, hr, run⟩ := bind_ok run
    simp only [pure, Except.pure, Except.ok.injEq, Prod.mk.injEq] at run
    obtain ⟨-, rfl⟩ := run
    exact (readPreparedTotal_shows (fun _ => false) hr).slots
  | readDummy draw =>
    obtain ⟨r, hr, same⟩ := map_ok run
    obtain ⟨-, rfl⟩ := Prod.mk.inj same
    exact (readDummy_shows (fun _ => false) hr).slots
  | flush =>
    simp only [ObliviousHistogram.step, Except.ok.injEq, Prod.mk.injEq] at run
    obtain ⟨-, rfl⟩ := run
    rfl
  | handleDeferredResize =>
    obtain ⟨r, hr, same⟩ := map_ok run
    obtain ⟨-, rfl⟩ := Prod.mk.inj same
    obtain ⟨auto, -, ⟨-, rfl⟩ | ⟨target, -, grown⟩⟩ := handleDeferredResize_spec hr
    · rfl
    · exact (applyDeferredAutoResizeGrow_shows (fun _ => false) grown).slots
  | grow | enableAutoResize | enableDeferredAutoResize | takeDeferredSignal | applyDeferredGrow => exact routine.elim

omit [Add V] [Inhabited V] in
/-- The invariant for more identities. -/
theorem Inv.weaken {known known' : UInt64 × Vector UInt8 K → Prop} (inv : h.Inv known)
    (sub : ∀ id, known id → known' id) : h.Inv known' :=
  ⟨inv.shape, inv.onPath, fun b hb => sub _ (inv.inserted b hb),
    fun identified => inv.distinct fun a b ka kb => identified a b (sub _ ka) (sub _ kb)⟩

/-- Whole runs of such operations. -/
theorem Tandem.run (sameK : math'.rawK = math.rawK) (sep : Separated prf K keys) (hx : keys x)
    (tandem : Tandem prf keys x phase present h h') {ops : List (TreeOp K V)}
    (tracked : ∀ op ∈ ops, op.Tracked prf keys) (routine : ∀ op ∈ ops, op.Routine)
    (marked : Marked marks (slotsOf h.trace) (arrivals x present ops)) {outs outs' : List (Option V)}
    (run : h.run math ops = .ok (outs, g)) (run' : h'.run math' (ops.map (TreeOp.mask prf x)) = .ok (outs', g')) :
    Drifted prf keys x marks phase (ops.foldl (fun present op => op.leaves x present) present) h h' g g' := by
  induction ops generalizing h h' phase present outs outs' with
  | nil =>
    simp only [ObliviousHistogram.run, List.map_nil, Except.ok.injEq, Prod.mk.injEq] at run run'
    obtain ⟨-, rfl⟩ := run
    obtain ⟨-, rfl⟩ := run'
    exact .of_quiet (.of_trace rfl) (.of_trace rfl) (by simp) tandem
  | cons op ops ih =>
    rw [List.map_cons] at run'
    obtain ⟨out, rest, m, hstep, hrun, -⟩ := run_cons run
    obtain ⟨out', rest', m', hstep', hrun', -⟩ := run_cons run'
    have later : ∀ op ∈ ops, op.Tracked prf keys := fun op hop => tracked op (.tail _ hop)
    have here := tracked op (.head _)
    have lock := tandem.lock
    obtain ⟨minv, mprf, -⟩ := step_inv lock.inv (fun id hid => TreeOp.Tracked.inserts here id (lock.prf_eq ▸ hid)) hstep
    obtain ⟨minv', mprf', -⟩ := step_inv lock.inv'
      (fun id hid => TreeOp.Tracked.inserts (TreeOp.Tracked.mask here) id (lock.prf_eq' ▸ hid)) hstep'
    obtain ⟨first, second⟩ := marked.split
    have slots : slotsOf m.trace = slotsOf h.trace + (firsts present (op.stores x)).length := by
      rw [length_firsts, length_stores]
      exact step_slots (lock.inv.weaken fun _ _ => trivial) (routine op (.head _)) hstep
    refine (tandem.step sameK sep hx here (routine op (.head _)) first hstep hstep').trans (fun phase tandem =>
      ih tandem later (fun op hop => routine op (.tail _ hop)) (slots ▸ second) hrun hrun') ?_ ?_
    · exact (run_inv minv (fun op hop id hid => TreeOp.Tracked.inserts (later op hop) id (by
        rwa [mprf, lock.prf_eq] at hid)) hrun).2.2
    · refine (run_inv minv' (fun op hop id hid => ?_) hrun').2.2
      obtain ⟨o, ho, rfl⟩ := List.mem_map.mp hop
      exact TreeOp.Tracked.inserts (TreeOp.Tracked.mask (later o ho)) id (by rwa [mprf', lock.prf_eq'] at hid)

end Operations
end ObliviousHistogram
end Roga
