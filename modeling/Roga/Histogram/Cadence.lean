import Roga.Histogram.Pace
import Roga.Histogram.Schedule

/-! The cadence of evictions: which leaves a run evicts, in what order, and how many
slots it takes in between. Both are read off the public trace. -/
namespace Roga
open ObliviousHistogram
variable {Z K A S : Nat} {V : Type} {math : ResizeMath}

namespace ObliviousHistogram

theorem eq_of_mod_eq {x y p : Nat} (hx : p ≤ x) (hx' : x < p * 2) (hy : p ≤ y) (hy' : y < p * 2)
    (same : x % p = y % p) : x = y := by
  rw [Nat.mod_eq_sub_mod hx, Nat.mod_eq_sub_mod hy, Nat.mod_eq_of_lt (by omega), Nat.mod_eq_of_lt (by omega)] at same
  omega

/-- A node above an evicted leaf is the leaf that a tree cut at its depth evicts. -/
theorem evictLeafAt_ancestor {height depth : Nat} (hh : height ≤ 31) (hd : depth ≤ height) (evictCtr : Nat) :
    evictLeafAt height evictCtr >>> (height - depth) = evictLeafAt depth evictCtr := by
  obtain ⟨low, high⟩ := evictLeafAt_bounds hh evictCtr
  obtain ⟨low', high'⟩ := evictLeafAt_bounds (hd.trans hh) evictCtr
  have split : 2 ^ height = 2 ^ depth * 2 ^ (height - depth) := by rw [← Nat.pow_add, Nat.add_sub_cancel' hd]
  refine eq_of_mod_eq ?_ ?_ low' high' ?_
  · rw [Nat.shiftRight_eq_div_pow, Nat.le_div_iff_mul_le (Nat.two_pow_pos _), ← split]
    exact low
  · rw [Nat.shiftRight_eq_div_pow, Nat.div_lt_iff_lt_mul (Nat.two_pow_pos _), Nat.mul_right_comm, ← split]
    exact high
  · apply Nat.eq_of_testBit_eq
    intro i
    rw [Nat.testBit_mod_two_pow, Nat.testBit_mod_two_pow]
    by_cases hi : i < depth
    · rw [Nat.testBit_shiftRight, evictLeafAt_testBit hh evictCtr (by omega),
        evictLeafAt_testBit (hd.trans hh) evictCtr hi, show height - 1 - (height - depth + i) = depth - 1 - i by omega]
    · simp [hi]

/-- As many evictions in a row as there are leaves visit each leaf once. -/
theorem visits_eq_one {height : Nat} (hh : height ≤ 31) (w : Nat) {leaf : TreeIndex} (low : 2 ^ height ≤ leaf)
    (high : leaf < 2 ^ (height + 1)) : visits height w (2 ^ height) leaf = 1 := by
  have image : (Finset.range (2 ^ height)).image (fun j => evictLeafAt height (w + j)) =
      Finset.Ico (2 ^ height) (2 ^ (height + 1)) := by
    apply Finset.eq_of_subset_of_card_le
    · intro leaf hleaf
      obtain ⟨j, -, rfl⟩ := Finset.mem_image.mp hleaf
      exact Finset.mem_Ico.mpr (evictLeafAt_bounds hh _)
    · rw [Finset.card_image_of_injOn, Finset.card_range, Nat.card_Ico, Nat.pow_succ]
      · omega
      · intro i hi j hj same
        exact evictLeafAt_injOn hh w (Nat.le_refl (leafCount height)) (Finset.mem_range.mp hi) (Finset.mem_range.mp hj) same
  obtain ⟨j, hj, here⟩ := Finset.mem_image.mp (image ▸ Finset.mem_Ico.mpr ⟨low, high⟩)
  refine Nat.le_antisymm (visits_le_one hh w (Nat.le_refl (leafCount height)) leaf) ?_
  exact List.length_pos_of_mem (List.mem_filter.mpr ⟨List.mem_range.mpr (Finset.mem_range.mp hj), decide_eq_true here⟩)

end ObliviousHistogram

/-- An event that is no slot and no eviction. -/
def PublicEvent.Silent : PublicEvent → Prop
  | .slot => False
  | .evict _ => False
  | _ => True

namespace Counters
variable {c : Counters} {t later window earlier : List PublicEvent}

/-- The counters after an event. -/
def see (c : Counters) : PublicEvent → Counters
  | .slot => c.count
  | .evict _ => { c with evictCtr := c.evictCtr + 1 }
  | .grown => c.grow
  | .access _ => c
  | .sibling _ => c

/-- The counters after a trace, latest first: they are public. -/
def after (c : Counters) (t : List PublicEvent) : Counters := t.foldr (fun e c => c.see e) c

theorem after_cons (e : PublicEvent) : c.after (e :: t) = (c.after t).see e := rfl

theorem after_append (later earlier : List PublicEvent) :
    c.after (later ++ earlier) = (c.after earlier).after later := List.foldr_append

theorem after_evictEvents (grew : Bool) : c.after (c.evictEvents grew) = c.evict grew := by
  rw [evictEvents, after_append, after_append]
  cases grew
  · split <;> rfl
  · split <;> rfl

theorem after_events (m : Move) : c.after (c.events A m) = c.move A m := by
  cases m with
  | slot grew =>
    rw [events, move]
    split
    · exact after_append (c.count.evictEvents grew) [.slot] ▸ after_evictEvents grew
    · rfl
  | access leaf => rfl
  | grow => rfl

/-- An eviction shows its leaf first. -/
theorem evictEvents_eq (c : Counters) (grew : Bool) : ∃ later,
    c.evictEvents grew = later ++ [.evict (evictLeafAt c.height c.evictCtr)] ∧ ∀ e ∈ later, e.Silent := by
  refine ⟨(if grew then [.grown] else []) ++ (if c.evictCtr + 1 ≤ c.sweepEnd then
    [.sibling (evictLeafAt c.height c.evictCtr ^^^ 1)] else []) ++ [.access (evictLeafAt c.height c.evictCtr)],
    (List.append_assoc _ [_] [_]).symm, ?_⟩
  intro e he
  rcases List.mem_append.mp he with he | he
  · rcases List.mem_append.mp he with he | he
    · cases grew
      · exact absurd he List.not_mem_nil
      · exact List.mem_singleton.mp he ▸ trivial
    · split at he
      · exact List.mem_singleton.mp he ▸ trivial
      · exact absurd he List.not_mem_nil
  · exact List.mem_singleton.mp he ▸ trivial

theorem after_shown (moves : List Move) : c.after (c.shown A moves) = c.run A moves := by
  induction moves generalizing c with
  | nil => rfl
  | cons m moves ih => rw [shown, after_append, after_events, ih, run_cons]

/-- What may come next: an eviction takes the leaf of its number, and follows the slot that makes it due. -/
def Allows (A : Nat) (c : Counters) (t : List PublicEvent) : PublicEvent → Prop
  | .evict leaf => leaf = evictLeafAt (c.after t).height (c.after t).evictCtr ∧
      (c.after t).interval A ∣ (c.after t).appendCtr ∧ t.head? = some .slot
  | _ => True

/-- A trace whose evictions are all as the counters have them. -/
def Scheduled (A : Nat) (c : Counters) : List PublicEvent → Prop
  | [] => True
  | e :: t => c.Allows A t e ∧ c.Scheduled A t

theorem Scheduled.silent (scheduled : c.Scheduled A t) (silent : ∀ e ∈ later, e.Silent) : c.Scheduled A (later ++ t) := by
  induction later with
  | nil => exact scheduled
  | cons e later ih =>
    refine ⟨?_, ih fun e he => silent e (.tail _ he)⟩
    have quiet := silent e (.head _)
    cases e with
    | evict leaf => exact absurd quiet id
    | _ => trivial

theorem Scheduled.events (scheduled : c.Scheduled A t) (m : Move) : c.Scheduled A ((c.after t).events A m ++ t) := by
  cases m with
  | access leaf => exact ⟨trivial, scheduled⟩
  | grow => exact ⟨trivial, scheduled⟩
  | slot grew =>
    rw [Counters.events]
    split
    · rename_i due
      obtain ⟨after, events, silent⟩ := (c.after t).count.evictEvents_eq grew
      rw [events, List.append_assoc, List.append_assoc]
      exact Scheduled.silent ⟨⟨rfl, due, rfl⟩, trivial, scheduled⟩ silent
    · exact ⟨trivial, scheduled⟩

theorem Scheduled.shown (scheduled : c.Scheduled A t) (moves : List Move) :
    c.Scheduled A ((c.after t).shown A moves ++ t) := by
  induction moves generalizing t with
  | nil => exact scheduled
  | cons m moves ih =>
    have rest := ih (scheduled.events m)
    rwa [after_append, after_events, ← List.append_assoc] at rest

theorem Scheduled.of_append (scheduled : c.Scheduled A (later ++ earlier)) : c.Scheduled A earlier := by
  induction later with
  | nil => exact scheduled
  | cons e later ih => exact ih scheduled.2

/-- The evicted leaves, latest first. -/
def evictsOf (t : List PublicEvent) : List TreeIndex :=
  t.filterMap fun
    | .evict leaf => some leaf
    | _ => none

/-- With no growth in between, the evicted leaves are those of the numbers that follow. -/
theorem Scheduled.leaves (scheduled : c.Scheduled A (window ++ earlier)) (still : .grown ∉ window) :
    evictsOf window = ((List.range (evictsOf window).length).map fun i =>
        evictLeafAt (c.after earlier).height ((c.after earlier).evictCtr + i)).reverse ∧
      (c.after (window ++ earlier)).height = (c.after earlier).height ∧
      (c.after (window ++ earlier)).evictCtr = (c.after earlier).evictCtr + (evictsOf window).length ∧
      (c.after (window ++ earlier)).sweepEnd = (c.after earlier).sweepEnd := by
  induction window with
  | nil => exact ⟨rfl, rfl, rfl, rfl⟩
  | cons e window ih =>
    obtain ⟨leaves, height, evictCtr, sweepEnd⟩ := ih scheduled.2 fun grown => still (.tail _ grown)
    cases e with
    | slot => exact ⟨leaves, height, evictCtr, sweepEnd⟩
    | access leaf => exact ⟨leaves, height, evictCtr, sweepEnd⟩
    | sibling leaf => exact ⟨leaves, height, evictCtr, sweepEnd⟩
    | grown => exact absurd (List.mem_cons_self ..) still
    | evict leaf =>
      have here : leaf = evictLeafAt (c.after (window ++ earlier)).height (c.after (window ++ earlier)).evictCtr :=
        scheduled.1.1
      have count : evictsOf (.evict leaf :: window) = leaf :: evictsOf window := rfl
      refine ⟨?_, height, ?_, sweepEnd⟩
      · rw [count, List.length_cons, List.range_succ, List.map_append, List.reverse_append, ← leaves, here, height,
          evictCtr]
        rfl
      · rw [count, List.length_cons, ← Nat.add_assoc, ← evictCtr]
        rfl

/-- Any `2 ^ depth` evictions in a row pass each node of that depth once. -/
theorem Scheduled.covers (scheduled : c.Scheduled A (window ++ earlier)) (still : .grown ∉ window) {depth : Nat}
    (low : (c.after earlier).height ≤ 31) (hd : depth ≤ (c.after earlier).height)
    (count : (evictsOf window).length = 2 ^ depth) {node : Nat} (first : 2 ^ depth ≤ node) (last : node < 2 ^ (depth + 1)) :
    (evictsOf window).countP (fun leaf => leaf >>> ((c.after earlier).height - depth) = node) = 1 := by
  rw [(scheduled.leaves still).1, count, List.countP_reverse, List.countP_map, ← visits_eq_one (hd.trans low)
    (c.after earlier).evictCtr first last, visits, List.countP_eq_length_filter]
  refine congrArg List.length (List.filter_congr fun i _ => ?_)
  rw [Function.comp_apply, evictLeafAt_ancestor low hd]

/-- The height only grows. -/
theorem after_height_le (c : Counters) (later earlier : List PublicEvent) :
    (c.after earlier).height ≤ (c.after (later ++ earlier)).height := by
  induction later with
  | nil => exact Nat.le_refl _
  | cons e later ih =>
    refine ih.trans ?_
    rw [List.cons_append, after_cons]
    cases e with
    | grown => exact Nat.le_succ _
    | _ => exact Nat.le_refl _

end Counters

/-! How many slots pass between two evictions. -/

/-- The slots since the last eviction, or since the start. -/
def slotsSince : List PublicEvent → Nat
  | [] => 0
  | .evict _ :: _ => 0
  | .slot :: t => slotsSince t + 1
  | _ :: t => slotsSince t

/-- The slots up to the next multiple of a period. -/
def untilNext (period ctr : Nat) : Nat := period - ctr % period

/-- At no time more than `A` slots since the last eviction. -/
def NeverLate (A : Nat) (t : List PublicEvent) : Prop := ∀ later earlier, t = later ++ earlier → slotsSince earlier ≤ A

namespace Counters
variable {c : Counters} {t later earlier : List PublicEvent}

/-- Growths that leave the counter no more than `A` slots from the last eviction to the next one. -/
def InStep (A : Nat) (c : Counters) (t : List PublicEvent) : Prop :=
  slotsSince t + untilNext (max (A / 2) 1) (c.after t).appendCtr ≤ A

/-- The slots since the last eviction and the slots to the next one. -/
def OnTime (A : Nat) (c : Counters) (t : List PublicEvent) : Prop :=
  slotsSince t + untilNext ((c.after t).interval A) (c.after t).appendCtr ≤ A

theorem interval_le (pos : 0 < A) (c : Counters) : c.interval A ≤ A := by
  rw [interval]
  split <;> omega

theorem interval_pos (pos : 0 < A) (c : Counters) : 0 < c.interval A := by
  rw [interval]
  split <;> omega

theorem untilNext_pos {period : Nat} (pos : 0 < period) (ctr : Nat) : 0 < untilNext period ctr :=
  Nat.sub_pos_of_lt (Nat.mod_lt ctr pos)

theorem untilNext_succ {period ctr : Nat} (pos : 0 < period) (early : ¬ period ∣ ctr + 1) :
    untilNext period (ctr + 1) + 1 = untilNext period ctr := by
  have below := Nat.mod_lt ctr pos
  have room : ctr % period + 1 ≠ period := by
    intro full
    apply early
    rw [Nat.dvd_iff_mod_eq_zero, ← Nat.mod_add_mod, full, Nat.mod_self]
  have next : (ctr + 1) % period = ctr % period + 1 := by
    rw [← Nat.mod_add_mod, Nat.mod_eq_of_lt (by omega)]
  rw [untilNext, untilNext, next]
  omega

theorem untilNext_le {period ctr n : Nat} (some : 0 < n) (due : period ∣ ctr + n) : untilNext period ctr ≤ n := by
  by_contra short
  rw [untilNext] at short
  have phase := Nat.mod_eq_zero_of_dvd due
  rw [← Nat.mod_add_mod, Nat.mod_eq_of_lt (by omega)] at phase
  omega

theorem dvd_untilNext {period : Nat} (pos : 0 < period) (ctr : Nat) : period ∣ ctr + untilNext period ctr := by
  have below := Nat.mod_lt ctr pos
  have whole := Nat.div_add_mod ctr period
  refine ⟨ctr / period + 1, ?_⟩
  rw [untilNext, Nat.mul_add, Nat.mul_one]
  omega

/-- A period that divides another comes due first. -/
theorem untilNext_le_of_dvd {p period : Nat} (pos : 0 < period) (dvd : p ∣ period) (ctr : Nat) :
    untilNext p ctr ≤ untilNext period ctr :=
  untilNext_le (untilNext_pos pos ctr) (dvd.trans (dvd_untilNext pos ctr))

theorem neverLate_cons {e : PublicEvent} : NeverLate A (e :: t) ↔ slotsSince (e :: t) ≤ A ∧ NeverLate A t := by
  constructor
  · intro never
    refine ⟨never [] _ rfl, ?_⟩
    rintro later earlier rfl
    exact never (e :: later) earlier rfl
  · rintro ⟨here, before⟩ later earlier split
    cases later with
    | nil => exact (congrArg slotsSince split) ▸ here
    | cons a later => exact before later earlier (List.cons.inj split).2

theorem slotsSince_silent (silent : ∀ e ∈ later, e.Silent) : slotsSince (later ++ t) = slotsSince t := by
  induction later with
  | nil => rfl
  | cons e later ih =>
    have quiet := silent e (.head _)
    have rest := ih fun e he => silent e (.tail _ he)
    cases e with
    | slot => exact absurd quiet id
    | evict leaf => exact absurd quiet id
    | _ => exact rest

theorem neverLate_silent (silent : ∀ e ∈ later, e.Silent) (never : NeverLate A t) : NeverLate A (later ++ t) := by
  induction later with
  | nil => exact never
  | cons e later ih =>
    refine neverLate_cons.mpr ⟨?_, ih fun e he => silent e (.tail _ he)⟩
    exact (slotsSince_silent silent).trans_le (never [] t rfl)

/-- One move keeps the evictions on time; a growth must be in step. -/
theorem OnTime.events (pos : 0 < A) (onTime : c.OnTime A t) (never : NeverLate A t) {m : Move}
    (inStep : m = .grow → c.InStep A t) :
    c.OnTime A ((c.after t).events A m ++ t) ∧ NeverLate A ((c.after t).events A m ++ t) := by
  cases m with
  | access leaf => exact ⟨onTime, neverLate_cons.mpr ⟨never [] t rfl, never⟩⟩
  | grow =>
    refine ⟨?_, neverLate_cons.mpr ⟨never [] t rfl, never⟩⟩
    have sweeping : (c.after t).grow.interval A = max (A / 2) 1 :=
      if_pos (Nat.lt_add_of_pos_right (Nat.two_pow_pos _))
    change slotsSince t + untilNext ((c.after t).grow.interval A) (c.after t).appendCtr ≤ A
    rw [sweeping]
    exact inStep rfl
  | slot grew =>
    have soon := untilNext_pos (interval_pos pos (c.after t)) (c.after t).appendCtr
    have slot : NeverLate A (.slot :: t) := by
      refine neverLate_cons.mpr ⟨?_, never⟩
      rw [OnTime] at onTime
      rw [slotsSince]
      omega
    rw [Counters.events]
    split
    · obtain ⟨quiet, events, silent⟩ := (c.after t).count.evictEvents_eq grew
      have evicted : NeverLate A (.evict (evictLeafAt (c.after t).count.height (c.after t).count.evictCtr) :: .slot :: t) :=
        neverLate_cons.mpr ⟨Nat.zero_le A, slot⟩
      rw [OnTime, events, List.append_assoc, List.append_assoc]
      refine ⟨?_, neverLate_silent silent evicted⟩
      rw [slotsSince_silent silent]
      refine (Nat.zero_add _).trans_le ((Nat.sub_le _ _).trans (interval_le pos _))
    · rename_i early
      refine ⟨?_, slot⟩
      have next := untilNext_succ (interval_pos pos (c.after t)) early
      change slotsSince t + 1 + untilNext ((c.after t).interval A) ((c.after t).appendCtr + 1) ≤ A
      rw [OnTime] at onTime
      omega

/-- When the sweep's period divides the other, growths are always in step. -/
theorem OnTime.inStep (pos : 0 < A) (dvd : max (A / 2) 1 ∣ A) (onTime : c.OnTime A t) : c.InStep A t := by
  have sooner : untilNext (max (A / 2) 1) (c.after t).appendCtr ≤
      untilNext ((c.after t).interval A) (c.after t).appendCtr := by
    rw [interval]
    split
    · exact Nat.le_refl _
    · exact untilNext_le_of_dvd pos dvd _
  exact (Nat.add_le_add_left sooner _).trans onTime

/-- Moves whose growths are in step are never late. -/
theorem OnTime.shown (pos : 0 < A) (onTime : c.OnTime A t) (never : NeverLate A t) {moves : List Move}
    (inStep : max (A / 2) 1 ∣ A ∨
      ∀ later earlier, (c.after t).shown A moves ++ t = later ++ .grown :: earlier → c.InStep A earlier) :
    NeverLate A ((c.after t).shown A moves ++ t) := by
  induction moves generalizing t with
  | nil => exact never
  | cons m moves ih =>
    have split : (c.after t).shown A (m :: moves) ++ t =
        (c.after ((c.after t).events A m ++ t)).shown A moves ++ ((c.after t).events A m ++ t) := by
      rw [Counters.shown, after_append, after_events, List.append_assoc]
    rw [split] at inStep ⊢
    obtain ⟨onTime', never'⟩ := onTime.events pos never (m := m) fun grow => by
      rcases inStep with dvd | all
      · exact onTime.inStep pos dvd
      · subst grow
        exact all _ t rfl
    exact ih onTime' never' inStep

theorem exists_first_evict (evicted : evictsOf t ≠ []) : ∃ later leaf calm,
    t = later ++ .evict leaf :: calm ∧ evictsOf calm = [] := by
  induction t with
  | nil => exact absurd rfl evicted
  | cons e t ih =>
    by_cases before : evictsOf t = []
    · cases e with
      | evict leaf => exact ⟨[], leaf, t, rfl, before⟩
      | _ => exact absurd before evicted
    · obtain ⟨later, leaf, calm, rfl, none⟩ := ih before
      exact ⟨e :: later, leaf, calm, rfl, none⟩

/-- Without an eviction the slots add up, and a sweep goes on. -/
theorem calm_slots {calm : List PublicEvent} (none : evictsOf calm = [])
    (sweeping : (c.after t).evictCtr < (c.after t).sweepEnd) : ∃ n,
    slotsSince (calm ++ t) = slotsSince t + n ∧ (c.after (calm ++ t)).appendCtr = (c.after t).appendCtr + n ∧
      (c.after (calm ++ t)).evictCtr < (c.after (calm ++ t)).sweepEnd ∧ (calm.head? = some .slot → 0 < n) := by
  induction calm with
  | nil => exact ⟨0, rfl, rfl, sweeping, fun slot => nomatch slot⟩
  | cons e calm ih =>
    cases e with
    | evict leaf => exact absurd none (List.cons_ne_nil _ _)
    | slot =>
      obtain ⟨n, since, appendCtr, goes, -⟩ := ih none
      exact ⟨n + 1, congrArg (· + 1) since, congrArg (· + 1) appendCtr, goes, fun _ => Nat.succ_pos n⟩
    | grown =>
      obtain ⟨n, since, appendCtr, -, -⟩ := ih none
      exact ⟨n, since, appendCtr, Nat.lt_add_of_pos_right (Nat.two_pow_pos _), fun slot => nomatch slot⟩
    | access leaf =>
      obtain ⟨n, since, appendCtr, goes, -⟩ := ih none
      exact ⟨n, since, appendCtr, goes, fun slot => nomatch slot⟩
    | sibling leaf =>
      obtain ⟨n, since, appendCtr, goes, -⟩ := ih none
      exact ⟨n, since, appendCtr, goes, fun slot => nomatch slot⟩

/-- After a growth that is out of step the next eviction is late. -/
theorem Scheduled.late (scheduled : c.Scheduled A (later ++ .grown :: earlier)) (evicted : evictsOf later ≠ [])
    (never : NeverLate A (later ++ .grown :: earlier)) : c.InStep A earlier := by
  obtain ⟨later, leaf, calm, rfl, none⟩ := exists_first_evict evicted
  rw [List.append_assoc, List.cons_append] at scheduled never
  obtain ⟨-, due, follows⟩ := scheduled.of_append.1
  have sweeping : (c.after (.grown :: earlier)).evictCtr < (c.after (.grown :: earlier)).sweepEnd :=
    Nat.lt_add_of_pos_right (Nat.two_pow_pos _)
  obtain ⟨n, since, appendCtr, goes, some⟩ := calm_slots none sweeping
  rw [interval, if_pos goes, appendCtr] at due
  have some : 0 < n := some (by
    cases calm with
    | nil => exact nomatch follows
    | cons e calm => exact follows)
  have late := never (later ++ [.evict leaf]) (calm ++ .grown :: earlier) (by rw [List.append_assoc]; rfl)
  rw [since] at late
  exact (Nat.add_le_add_left (untilNext_le some due) _).trans late

end Counters

section Runs
variable [Add V] [Inhabited V] {h h' : ObliviousHistogram Z K A S V} {ops : List (TreeOp K V)} {outs : List (Option V)}

/-- What a run shows is scheduled, and determines its counters. -/
theorem run_scheduled (hrun : h.run math ops = .ok (outs, h')) : ∃ recent,
    publicOf h'.trace = recent ++ publicOf h.trace ∧ h.counters.Scheduled A recent ∧
      h'.counters = h.counters.after recent ∧ (h.height ≤ maxTreeHeight → h'.height ≤ maxTreeHeight) := by
  obtain ⟨moves, moved⟩ := run_moved hrun
  refine ⟨h.counters.shown A moves, moved.shown, ?_, ?_, moved.height_le⟩
  · have scheduled := @Counters.Scheduled.shown A h.counters [] trivial moves
    rwa [List.append_nil] at scheduled
  · rw [moved.counters, Counters.after_shown]

/-- The eviction order covers the tree evenly: in any run, any `2 ^ depth` evictions in a row with no
growth in between pass each node of that depth once, and the sweep after a growth each former leaf once. -/
theorem evictions_cover (high : h.height ≤ maxTreeHeight) (hrun : h.run math ops = .ok (outs, h'))
    {later window earlier : List PublicEvent}
    (split : publicOf h'.trace = later ++ window ++ earlier ++ publicOf h.trace) (still : .grown ∉ window) :
    (∀ depth ≤ (h.counters.after earlier).height, (Counters.evictsOf window).length = 2 ^ depth →
      ∀ node, 2 ^ depth ≤ node → node < 2 ^ (depth + 1) →
        (Counters.evictsOf window).countP (fun leaf => leaf >>> ((h.counters.after earlier).height - depth) = node) = 1) ∧
    (∀ rest, earlier = .grown :: rest →
      (h.counters.after (window ++ earlier)).evictCtr = (h.counters.after (window ++ earlier)).sweepEnd →
      ∀ node, 2 ^ (h.counters.after rest).height ≤ node → node < 2 ^ ((h.counters.after rest).height + 1) →
        (Counters.evictsOf window).countP (fun leaf => leaf >>> 1 = node) = 1) := by
  obtain ⟨recent, shown, scheduled, counters, low⟩ := run_scheduled hrun
  obtain rfl : later ++ window ++ earlier = recent := List.append_cancel_right (split.symm.trans shown)
  have bounded : (h.counters.after earlier).height ≤ 31 := by
    refine (Counters.after_height_le h.counters (later ++ window) earlier).trans ?_
    rw [← counters]
    exact low high
  rw [List.append_assoc] at scheduled
  have scheduled := scheduled.of_append
  refine ⟨fun depth hd count node first last => scheduled.covers still bounded hd count first last, ?_⟩
  rintro rest rfl swept node first last
  obtain ⟨-, -, evictCtr, sweepEnd⟩ := scheduled.leaves still
  have count : (Counters.evictsOf window).length = 2 ^ (h.counters.after rest).height := by
    rw [evictCtr, sweepEnd] at swept
    exact Nat.add_left_cancel swept
  have taller : (h.counters.after (.grown :: rest)).height = (h.counters.after rest).height + 1 := rfl
  have once := scheduled.covers still bounded (Nat.le_of_succ_le (Nat.le_of_eq taller.symm)) count first last
  rwa [taller, Nat.add_sub_cancel_left] at once

omit [Add V] in
theorem new_shown {cap : Nat} {prf : Aes128} (start : new cap prf = .ok h) : publicOf h.trace = [] := by
  obtain ⟨height, -, start⟩ := bind_ok start
  simp only [pure, Except.pure, Except.ok.injEq] at start
  subst start
  rfl

/-- A run on fixed inputs, by what it shows. -/
theorem exists_run {t : List PublicEvent} {cap : Nat} {prf : Aes128}
    (shown : (do
      let h ← (new cap prf : Except Panic (ObliviousHistogram Z K A S V))
      let (_, h') ← h.run math ops
      return publicOf h'.trace).toOption = some t) : ∃ (h h' : ObliviousHistogram Z K A S V) (outs : List (Option V)),
    new cap prf = .ok h ∧ h.run math ops = .ok (outs, h') ∧ publicOf h'.trace = t := by
  obtain ⟨h, start, run⟩ := bind_ok (eq_ok_of_toOption shown)
  obtain ⟨⟨outs, h'⟩, run, shown⟩ := bind_ok run
  simp only [pure, Except.pure, Except.ok.injEq] at shown
  exact ⟨h, h', outs, start, run, shown⟩

/-- Two evictions after a growth. -/
theorem evictions_cover_sweep : ∃ (h h' : ObliviousHistogram 1 1 1 2 Nat) (outs : List (Option Nat)),
    new 2 id = .ok h ∧ h.run .constant [.grow, .append [1] 5, .append [2] 6] = .ok (outs, h') ∧
      ∃ window, publicOf h'.trace = window ++ [.grown] ∧
        (Counters.evictsOf window).countP (fun leaf => leaf >>> 1 = 3) = 1 := by
  obtain ⟨h, h', outs, start, run, shown⟩ := @exists_run 1 1 1 2 Nat .constant _ _
    [.grow, .append [1] 5, .append [2] 6] ([.sibling 7, .access 6, .evict 6, .slot, .sibling 5, .access 4, .evict 4, .slot,
      .access 7, .access 6, .access 5, .access 4] ++ [.grown]) 2 id (by decide +kernel)
  have small : h.counters = ⟨1, 0, 0, 0, 0⟩ := by
    have known : (new 2 id : Except Panic (ObliviousHistogram 1 1 1 2 Nat)).toOption.map counters = some ⟨1, 0, 0, 0, 0⟩ := by
      decide +kernel
    rw [start] at known
    exact Option.some.inj known
  have low : h.height ≤ maxTreeHeight := (congrArg Counters.height small).trans_le (by decide)
  have cover := (@evictions_cover _ _ _ _ _ _ _ _ _ _ _ _ low run [] _ [.grown]
    (by rw [new_shown start, List.append_nil]; exact shown) (by decide)).2 [] rfl (by rw [small]; decide) 3
  refine ⟨h, h', outs, start, run, _, shown, cover ?_ ?_⟩
  · rw [small]
    decide
  · rw [small]
    decide

/-- From a new tree, evictions are never late when every growth is in step, as it always is when `max (A / 2) 1`
divides `A`; and the first eviction after any other growth is late. -/
theorem evictions_on_time_iff (pos : 0 < A) {cap : Nat} {prf : Aes128} (start : new cap prf = .ok h)
    (hrun : h.run math ops = .ok (outs, h')) :
    (max (A / 2) 1 ∣ A → NeverLate A (publicOf h'.trace)) ∧
    ((∀ later earlier, publicOf h'.trace = later ++ .grown :: earlier → h.counters.InStep A earlier) →
      NeverLate A (publicOf h'.trace)) ∧
    (NeverLate A (publicOf h'.trace) → ∀ later earlier, publicOf h'.trace = later ++ .grown :: earlier →
      Counters.evictsOf later ≠ [] → h.counters.InStep A earlier) := by
  obtain ⟨moves, moved⟩ := run_moved hrun
  have shown : publicOf h'.trace = h.counters.shown A moves ++ [] := by rw [moved.shown, new_shown start]
  have onTime : h.counters.OnTime A [] := by
    obtain ⟨height, -, start⟩ := bind_ok start
    simp only [pure, Except.pure, Except.ok.injEq] at start
    subst start
    exact (Nat.zero_add _).trans_le ((Nat.sub_le _ _).trans (Counters.interval_le pos _))
  have start : NeverLate A [] := by
    intro later earlier split
    obtain ⟨-, rfl⟩ := List.append_eq_nil_iff.mp split.symm
    exact Nat.zero_le A
  rw [shown]
  refine ⟨fun dvd => onTime.shown pos start (.inl dvd), fun all => onTime.shown pos start (.inr all), ?_⟩
  intro never later earlier split evicted
  have scheduled : h.counters.Scheduled A (h.counters.shown A moves ++ []) := 
    @Counters.Scheduled.shown A h.counters [] trivial moves
  rw [split] at scheduled never
  exact scheduled.late evicted never

theorem evictions_on_time_four : ∃ (h h' : ObliviousHistogram 1 1 4 4 Nat) (outs : List (Option Nat)),
    new 2 id = .ok h ∧ h.run .constant [.append [1] 5, .grow, .append [2] 6] = .ok (outs, h') ∧
      NeverLate 4 (publicOf h'.trace) := by
  obtain ⟨h, h', outs, start, run, -⟩ := @exists_run 1 1 4 4 Nat .constant _ _ [.append [1] 5, .grow, .append [2] 6]
    [.sibling 5, .access 4, .evict 4, .slot, .access 7, .access 6, .access 5, .access 4, .grown, .slot] 2 id
    (by decide +kernel)
  exact ⟨h, h', outs, start, run, (evictions_on_time_iff (by decide) start run).1 (by decide)⟩

/-- With `A = 5`, a growth after four appends puts the first eviction after the sixth. -/
theorem eviction_late : ∃ (h h' : ObliviousHistogram 1 1 5 4 Nat) (outs : List (Option Nat)),
    new 2 id = .ok h ∧ h.run .constant [.append [1] 1, .append [2] 2, .append [3] 3, .append [4] 4, .grow,
      .append [5] 5, .append [6] 6] = .ok (outs, h') ∧ ¬ NeverLate 5 (publicOf h'.trace) := by
  obtain ⟨h, h', outs, start, run, shown⟩ := @exists_run 1 1 5 4 Nat .constant _ _ [.append [1] 1, .append [2] 2,
    .append [3] 3, .append [4] 4, .grow, .append [5] 5, .append [6] 6] ([.sibling 5, .access 4, .evict 4] ++
      [.slot, .slot, .access 7, .access 6, .access 5, .access 4, .grown, .slot, .slot, .slot, .slot]) 2 id
    (by decide +kernel)
  refine ⟨h, h', outs, start, run, fun never => ?_⟩
  exact absurd (never _ _ shown) (by decide)

end Runs
end Roga
