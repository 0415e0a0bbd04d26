import Roga.Sharded.Alignment

/-! The schedule of appends and flushes: what an observer sees of two runs is the same
when they make the same calls and grow after the same slots. -/
namespace Roga
open Ct
variable {Z K A S : Nat} {V : Type} {math : ResizeMath}

/-- The number of slots before each growth, latest first. -/
def growthSlots : List PublicEvent → List Nat
  | [] => []
  | .grown :: shown => shown.count .slot :: growthSlots shown
  | _ :: shown => growthSlots shown

namespace Counters

/-- A slot in which nothing grows, or a growth. -/
def unit (grew : Bool) : Move := if grew then .grow else .slot false

/-- Growths as their positions, latest first. -/
def marks : List Bool → List Nat
  | [] => []
  | true :: units => units.count false :: marks units
  | false :: units => marks units

theorem marks_le {units : List Bool} {n : Nat} (mem : n ∈ marks units) : n ≤ units.count false := by
  induction units with
  | nil => exact absurd mem List.not_mem_nil
  | cons grew units ih =>
    cases grew with
    | true =>
      rcases List.mem_cons.mp mem with rfl | mem
      · exact List.count_le_count_cons
      · exact (ih mem).trans List.count_le_count_cons
    | false => exact (ih mem).trans List.count_le_count_cons

/-- Without slots and growths the sequence is empty. -/
theorem eq_nil_of_marks {units : List Bool} (slots : units.count false = 0) (none : marks units = []) : units = [] := by
  cases units with
  | nil => rfl
  | cons grew units =>
    cases grew with
    | true => cases none
    | false =>
      rw [List.count_cons_self] at slots
      cases slots

/-- The slots and the positions of the growths among them fix the sequence. -/
theorem marks_unique {units units' : List Bool} (slots : units.count false = units'.count false)
    (same : marks units = marks units') : units = units' := by
  induction units generalizing units' with
  | nil => exact (eq_nil_of_marks slots.symm same.symm).symm
  | cons grew units ih =>
    cases units' with
    | nil => exact eq_nil_of_marks slots same
    | cons grew' units' =>
      cases grew with
      | true =>
        cases grew' with
        | true =>
          obtain ⟨slots, same⟩ := List.cons.inj same
          rw [ih slots same]
        | false =>
          -- the growth lies after all slots of one sequence and before one of the other
          have late : units.count false ∈ marks units' := by
            rw [show marks units' = _ from same.symm]
            exact .head _
          rw [List.count_cons_self, List.count_cons_of_ne (by decide)] at slots
          have := marks_le late
          omega
      | false =>
        cases grew' with
        | true =>
          have late : units'.count false ∈ marks units := by
            rw [show marks units = _ from same]
            exact .head _
          rw [List.count_cons_self, List.count_cons_of_ne (by decide)] at slots
          have := marks_le late
          omega
        | false =>
          rw [List.count_cons_self, List.count_cons_self] at slots
          rw [ih (Nat.succ.inj slots) same]

theorem growthSlots_append {shown : List PublicEvent} (quiet : PublicEvent.grown ∉ shown) (rest : List PublicEvent) :
    growthSlots (shown ++ rest) = growthSlots rest := by
  induction shown with
  | nil => rfl
  | cons e shown ih =>
    obtain ⟨first, others⟩ := not_or.mp (mt List.mem_cons.mpr quiet)
    cases e with
    | grown => exact absurd rfl first
    | slot => exact ih others
    | access leaf => exact ih others
    | sibling leaf => exact ih others
    | evict leaf => exact ih others

/-- An event of a slot in which nothing grows. -/
theorem events_slot_quiet (c : Counters) : PublicEvent.grown ∉ c.events A (.slot false) ∧
    (c.events A (.slot false)).count .slot = 1 := by
  rw [events_slot]
  split
  · rw [evictEvents, if_neg Bool.false_ne_true]
    split <;> simp
  · simp

theorem shown_snoc (c : Counters) (moves : List Move) (m : Move) :
    c.shown A (moves ++ [m]) = (c.run A moves).events A m ++ c.shown A moves := by
  rw [shown_append, shown, shown, List.nil_append]

/-- What the units show of themselves. -/
theorem shown_units (c : Counters) (units : List Bool) :
    (c.shown A (units.reverse.map unit)).count .slot = units.count false ∧
      growthSlots (c.shown A (units.reverse.map unit)) = marks units := by
  induction units with
  | nil => exact ⟨rfl, rfl⟩
  | cons grew units ih =>
    obtain ⟨slots, growths⟩ := ih
    rw [List.reverse_cons, List.map_append, List.map_singleton, shown_snoc]
    cases grew with
    | true =>
      constructor
      · rw [List.count_append, slots, List.count_cons_of_ne (by decide)]
        exact Nat.zero_add _
      · exact congrArg₂ List.cons slots growths
    | false =>
      obtain ⟨quiet, one⟩ := events_slot_quiet (A := A) (c.run A (units.reverse.map unit))
      constructor
      · rw [List.count_append, slots, List.count_cons_self, Nat.add_comm]
        exact congrArg _ one
      · exact (growthSlots_append quiet _).trans growths

/-- Units with as many slots and growths after the same of them are equal. -/
theorem units_unique {c c' : Counters} {units units' : List Bool} (slots : units.count false = units'.count false)
    (growths : growthSlots (c.shown A (units.map unit)) = growthSlots (c'.shown A (units'.map unit))) : units = units' := by
  have first := (shown_units (A := A) c units.reverse).2
  have second := (shown_units (A := A) c' units'.reverse).2
  rw [List.reverse_reverse] at first second
  refine List.reverse_injective (marks_unique ?_ (first.symm.trans (growths.trans second)))
  rw [List.count_reverse, List.count_reverse, slots]

/-- An eviction that grows the tree is one that does not, followed by a growth. -/
theorem exists_units (c : Counters) (grews : List Bool) : ∃ units : List Bool,
    c.run A (units.map unit) = c.run A (grews.map .slot) ∧ c.shown A (units.map unit) = c.shown A (grews.map .slot) ∧
      units.count false = grews.length := by
  induction grews generalizing c with
  | nil => exact ⟨[], rfl, rfl, rfl⟩
  | cons grew grews ih =>
    obtain ⟨units, run, shown, slots⟩ := ih (c.move A (.slot grew))
    have count : (false :: units).count false = (grew :: grews).length := by
      rw [List.count_cons_self, slots, List.length_cons]
    by_cases grows : grew = true ∧ c.count.interval A ∣ c.count.appendCtr
    · obtain ⟨rfl, due⟩ := grows
      have moved : (c.move A (.slot false)).grow = c.move A (.slot true) := by
        rw [move, move, if_pos due, if_pos due]
        rfl
      have events : [.grown] ++ c.events A (.slot false) = c.events A (.slot true) := by
        rw [Counters.events, Counters.events, if_pos due, if_pos due]
        rfl
      refine ⟨false :: true :: units, ?_, ?_, ?_⟩
      · refine Eq.trans ?_ run
        exact congrArg (Counters.run A · (units.map unit)) moved
      · calc c.shown A ((false :: true :: units).map unit)
            = (c.move A (.slot false)).grow.shown A (units.map unit) ++ ([.grown] ++ c.events A (.slot false)) :=
              List.append_assoc ..
          _ = (c.move A (.slot true)).shown A (units.map unit) ++ c.events A (.slot true) := by rw [moved, events]
          _ = c.shown A ((true :: grews).map .slot) := congrArg (· ++ c.events A (.slot true)) shown
      · rw [← count, List.count_cons_self, List.count_cons_self, List.count_cons_of_ne (by decide)]
    · have moved : c.move A (.slot false) = c.move A (.slot grew) ∧ c.events A (.slot false) = c.events A (.slot grew) := by
        cases grew with
        | false => exact ⟨rfl, rfl⟩
        | true =>
          have early : ¬ c.count.interval A ∣ c.count.appendCtr := fun due => grows ⟨rfl, due⟩
          rw [move, move, Counters.events, Counters.events, if_neg early, if_neg early, if_neg early, if_neg early]
          exact ⟨rfl, rfl⟩
      refine ⟨false :: units, ?_, ?_, count⟩
      · refine Eq.trans ?_ run
        exact congrArg (Counters.run A · (units.map unit)) moved.1
      · refine Eq.trans ?_ (congrArg (· ++ c.events A (.slot grew)) shown)
        exact congrArg₂ (fun next events => Counters.shown A next (units.map unit) ++ events) moved.1 moved.2

end Counters
namespace ObliviousHistogram
variable {h h' h₁ h₁' h₂ h₂' g : ObliviousHistogram Z K A S V}

/-- The states of all runs of new trees. -/
def Reachable [Add V] [Inhabited V] (math : ResizeMath) (h : ObliviousHistogram Z K A S V) : Prop :=
  ∃ cap prf ops outs, runNew math cap prf ops = .ok (outs, h)

/-- Equal public fields. -/
structure SamePublic (h₁ h₂ : ObliviousHistogram Z K A S V) : Prop where
  height : h₁.height = h₂.height
  epoch : h₁.epoch = h₂.epoch
  appendCtr : h₁.appendCtr = h₂.appendCtr
  evictCtr : h₁.evictCtr = h₂.evictCtr
  sweepEnd : h₁.sweepEnd = h₂.sweepEnd
  memory : h₁.physicalMemory.length = h₂.physicalMemory.length
  stash : h₁.stash.blocks.length = h₂.stash.blocks.length

/-- What an observer has seen between two states of a run, latest first. -/
def shownSince (h h' : ObliviousHistogram Z K A S V) : List PublicEvent :=
  (publicOf h'.trace).take ((publicOf h'.trace).length - (publicOf h.trace).length)

theorem Moved.shownSince {moves : List Move} (moved : Moved h moves h') : shownSince h h' = h.counters.shown A moves := by
  rw [ObliviousHistogram.shownSince, moved.shown, List.length_append, Nat.add_sub_cancel, List.take_left]

theorem SamePublic.counters (same : SamePublic h₁ h₂) : h₁.counters = h₂.counters := by
  rw [ObliviousHistogram.counters, ObliviousHistogram.counters, same.height, same.epoch, same.appendCtr, same.evictCtr,
    same.sweepEnd]

theorem SamePublic.of_counters {known known' : UInt64 × Vector UInt8 K → Prop} (inv₁ : h₁.Inv known) (inv₂ : h₂.Inv known')
    (same : h₁.counters = h₂.counters) : SamePublic h₁ h₂ := by
  have height : h₁.height = h₂.height := congrArg Counters.height same
  refine ⟨height, congrArg Counters.epoch same, congrArg Counters.appendCtr same, congrArg Counters.evictCtr same,
    congrArg Counters.sweepEnd same, ?_, ?_⟩
  · rw [inv₁.shape.memory, inv₂.shape.memory, height]
  · rw [inv₁.shape.slots, inv₂.shape.slots, inv₁.shape.path, inv₂.shape.path, height]

/-- Calls that differ in keys, values and masks only. -/
inductive SameCall : TreeOp K V → TreeOp K V → Prop
  | append (key key' : List UInt8) (val val' : V) : SameCall (.append key val) (.append key' val')
  | appendBatch (updates updates' : List (PreparedUpdate K V)) (length : updates.length = updates'.length) :
    SameCall (.appendBatch updates) (.appendBatch updates')
  | flush : SameCall .flush .flush

variable [Add V] [Inhabited V]

theorem Reachable.inv (reachable : Reachable math h) : h.Inv fun _ => True := by
  obtain ⟨cap, prf, ops, outs, run⟩ := reachable
  obtain ⟨h₀, start, run⟩ := bind_ok run
  exact (run_inv (new_spec start).1 (fun _ _ _ _ => trivial) run).1

/-- Two calls of one kind fill equally many slots. -/
theorem step_units {op₁ op₂ : TreeOp K V} {out₁ out₂ : Option V} (call : SameCall op₁ op₂)
    (run₁ : h₁.step math op₁ = .ok (out₁, h₁')) (run₂ : h₂.step math op₂ = .ok (out₂, h₂')) :
    ∃ grews₁ grews₂ : List Bool, grews₁.length = grews₂.length ∧ Moved h₁ (grews₁.map .slot) h₁' ∧
      Moved h₂ (grews₂.map .slot) h₂' := by
  cases call with
  | append key key' val val' =>
    obtain ⟨g₁, hg₁, same₁⟩ := map_ok run₁
    obtain ⟨g₂, hg₂, same₂⟩ := map_ok run₂
    obtain ⟨-, rfl⟩ := Prod.mk.inj same₁
    obtain ⟨-, rfl⟩ := Prod.mk.inj same₂
    obtain ⟨grew₁, -, kept₁⟩ := append_kept hg₁
    obtain ⟨grew₂, -, kept₂⟩ := append_kept hg₂
    exact ⟨[grew₁], [grew₂], rfl, kept₁.toMoved, kept₂.toMoved⟩
  | appendBatch updates updates' length =>
    obtain ⟨g₁, hg₁, same₁⟩ := map_ok run₁
    obtain ⟨g₂, hg₂, same₂⟩ := map_ok run₂
    obtain ⟨-, rfl⟩ := Prod.mk.inj same₁
    obtain ⟨-, rfl⟩ := Prod.mk.inj same₂
    obtain ⟨grews₁, slots₁, -, kept₁⟩ := appendPreparedMaskedBatch_kept hg₁
    obtain ⟨grews₂, slots₂, -, kept₂⟩ := appendPreparedMaskedBatch_kept hg₂
    exact ⟨grews₁, grews₂, slots₁.trans (length.trans slots₂.symm), kept₁.toMoved, kept₂.toMoved⟩
  | flush =>
    simp only [step, Except.ok.injEq, Prod.mk.injEq] at run₁ run₂
    exact ⟨[], [], rfl, run₁.2 ▸ (Kept.refl h₁).toMoved, run₂.2 ▸ (Kept.refl h₂).toMoved⟩

theorem run_units {ops₁ ops₂ : List (TreeOp K V)} {outs₁ outs₂ : List (Option V)} (calls : List.Forall₂ SameCall ops₁ ops₂)
    (run₁ : h₁.run math ops₁ = .ok (outs₁, h₁')) (run₂ : h₂.run math ops₂ = .ok (outs₂, h₂')) :
    ∃ grews₁ grews₂ : List Bool, grews₁.length = grews₂.length ∧ Moved h₁ (grews₁.map .slot) h₁' ∧
      Moved h₂ (grews₂.map .slot) h₂' := by
  induction calls generalizing h₁ h₂ outs₁ outs₂ with
  | nil =>
    simp only [run, Except.ok.injEq, Prod.mk.injEq] at run₁ run₂
    exact ⟨[], [], rfl, run₁.2 ▸ (Kept.refl h₁).toMoved, run₂.2 ▸ (Kept.refl h₂).toMoved⟩
  | cons call calls ih =>
    obtain ⟨out₁, outs₁', g₁, step₁, tail₁, -⟩ := run_cons run₁
    obtain ⟨out₂, outs₂', g₂, step₂, tail₂, -⟩ := run_cons run₂
    obtain ⟨ms₁, ms₂, slots, first₁, first₂⟩ := step_units call step₁ step₂
    obtain ⟨ns₁, ns₂, slots', rest₁, rest₂⟩ := ih tail₁ tail₂
    refine ⟨ms₁ ++ ns₁, ms₂ ++ ns₂, ?_, ?_, ?_⟩
    · rw [List.length_append, List.length_append, slots, slots']
    · rw [List.map_append]
      exact first₁.trans rest₁
    · rw [List.map_append]
      exact first₂.trans rest₂

/-- Two trees with the same public fields, after calls that differ in their data only. -/
theorem run_oblivious {ops₁ ops₂ : List (TreeOp K V)} {outs₁ outs₂ : List (Option V)} (reachable₁ : Reachable math h₁)
    (reachable₂ : Reachable math h₂) (same : SamePublic h₁ h₂) (calls : List.Forall₂ SameCall ops₁ ops₂)
    (run₁ : h₁.run math ops₁ = .ok (outs₁, h₁')) (run₂ : h₂.run math ops₂ = .ok (outs₂, h₂'))
    (decisions : growthSlots (shownSince h₁ h₁') = growthSlots (shownSince h₂ h₂')) :
    shownSince h₁ h₁' = shownSince h₂ h₂' ∧ SamePublic h₁' h₂' := by
  obtain ⟨grews₁, grews₂, length, moved₁, moved₂⟩ := run_units calls run₁ run₂
  obtain ⟨units₁, counters₁, shown₁, slots₁⟩ := Counters.exists_units (A := A) h₁.counters grews₁
  obtain ⟨units₂, counters₂, shown₂, slots₂⟩ := Counters.exists_units (A := A) h₂.counters grews₂
  rw [moved₁.shownSince, moved₂.shownSince, ← shown₁, ← shown₂] at decisions ⊢
  obtain rfl := Counters.units_unique (slots₁.trans (length.trans slots₂.symm)) decisions
  refine ⟨by rw [same.counters], .of_counters (run_inv reachable₁.inv (fun _ _ _ _ => trivial) run₁).1
    (run_inv reachable₂.inv (fun _ _ _ _ => trivial) run₂).1 ?_⟩
  rw [moved₁.counters, moved₂.counters, ← counters₁, ← counters₂, same.counters]

end ObliviousHistogram
namespace ShardedObliviousHistogram
open ObliviousHistogram
variable {h h' h₁ h₁' h₂ h₂' g : ShardedObliviousHistogram Z K A S V} {c c₁ c₂ : Counters}

/-- The states of all runs of new histograms. -/
def Reachable [Add V] [Inhabited V] (math : ResizeMath) (h : ShardedObliviousHistogram Z K A S V) : Prop :=
  ∃ slack blockSize prfs total batchSize quota frontends prf ops outs,
    runNew math slack blockSize prfs total batchSize quota frontends prf ops = .ok (outs, h)

/-- Equal sizes of the routers, and as many pending updates. -/
structure SameSizes (h₁ h₂ : ShardedObliviousHistogram Z K A S V) : Prop where
  batchCapacity : h₁.router.batchCapacity = h₂.router.batchCapacity
  perShardQuota : h₁.router.perShardQuota = h₂.router.perShardQuota
  frontendCount : h₁.router.frontendCount = h₂.router.frontendCount
  pending : h₁.router.pending.length = h₂.router.pending.length

/-- Equal public fields, shard by shard. -/
structure SamePublic (h₁ h₂ : ShardedObliviousHistogram Z K A S V) : Prop extends SameSizes h₁ h₂ where
  shards : List.Forall₂ ObliviousHistogram.SamePublic h₁.router.shards h₂.router.shards

/-- What an observer has seen of every shard. -/
def shownSince (h h' : ShardedObliviousHistogram Z K A S V) : List (List PublicEvent) :=
  List.zipWith ObliviousHistogram.shownSince h.router.shards h'.router.shards

/-- The slots after which the coordinator has grown, and with it all shards. -/
def decisions (h h' : ShardedObliviousHistogram Z K A S V) : Option (List Nat) := (shownSince h h').head?.map growthSlots

/-- Appends and flushes that differ in keys and values only. -/
inductive SameCall : ShardedOp V → ShardedOp V → Prop
  | append (key key' : List UInt8) (val val' : V) : SameCall (.append key val) (.append key' val')
  | flush : SameCall .flush .flush

/-- All shards have made the same moves. -/
structure Paced (c : Counters) (h : ShardedObliviousHistogram Z K A S V) (units : List Bool)
    (h' : ShardedObliviousHistogram Z K A S V) : Prop where
  coordinated : Coordinated (c.run A (units.map Counters.unit)) h'
  framed : Framed h h'
  moved : List.Forall₂ (fun tree tree' => Moved tree (units.map Counters.unit) tree') h.router.shards h'.router.shards

theorem Paced.trans {units units' : List Bool} (first : Paced c h units g)
    (second : Paced (c.run A (units.map Counters.unit)) g units' h') : Paced c h (units ++ units') h' := by
  refine ⟨?_, first.framed.trans second.framed, ?_⟩
  · rw [List.map_append, Counters.run_append]
    exact second.coordinated
  · rw [List.map_append]
    exact forall₂_comp (fun _ _ _ first second => first.trans second) first.moved second.moved

theorem zipWith_shownSince {trees trees' : List (ObliviousHistogram Z K A S V)} {moves : List Move}
    (counters : ∀ tree ∈ trees, tree.counters = c)
    (moved : List.Forall₂ (fun tree tree' => Moved tree moves tree') trees trees') :
    List.zipWith ObliviousHistogram.shownSince trees trees' = List.replicate trees.length (c.shown A moves) := by
  induction moved with
  | nil => rfl
  | cons first rest ih =>
    rw [List.zipWith_cons_cons, first.shownSince, counters _ (.head _), ih fun tree htree => counters tree (.tail _ htree)]
    rfl

theorem Paced.shownSince {units : List Bool} (coordinated : Coordinated c h) (paced : Paced c h units h') :
    shownSince h h' = List.replicate h.router.shards.length (c.shown A (units.map Counters.unit)) :=
  zipWith_shownSince (fun tree htree => (coordinated.all tree htree).2.1) paced.moved

theorem SameSizes.flushSlots (sizes : SameSizes h₁ h₂) : flushSlots h₁.router = flushSlots h₂.router := by
  have empty : h₁.router.pending.isEmpty = h₂.router.pending.isEmpty := by
    rw [Bool.eq_iff_iff, List.isEmpty_iff, List.isEmpty_iff, ← List.length_eq_zero_iff, ← List.length_eq_zero_iff,
      sizes.pending]
  rw [ShardedObliviousHistogram.flushSlots, ShardedObliviousHistogram.flushSlots, empty, sizes.frontendCount,
    sizes.perShardQuota]

variable [Add V] [Inhabited V]

theorem Reachable.coordinated (reachable : Reachable math h) : ∃ c, Coordinated c h := by
  obtain ⟨slack, blockSize, prfs, total, batchSize, quota, frontends, prf, ops, outs, run⟩ := reachable
  obtain ⟨h₀, start, run⟩ := bind_ok run
  obtain ⟨height, -, coordinated, -⟩ := newWithFrontends_coordinated start
  obtain ⟨c, after, -⟩ := run_induct (P := fun _ _ => True) (fun _ _ _ _ _ _ _ => trivial) coordinated trivial run
  exact ⟨c, after⟩

omit [Add V] in
theorem handleDeferredResize_pending (run : h.handleDeferredResize math = .ok h') :
    h'.router.pending = h.router.pending := by
  rcases handleDeferredResize_ok run with ⟨-, rfl⟩ | ⟨-, first, rest, signal, ready, -, -, outcome⟩
  · rfl
  · rcases outcome with ⟨-, rfl⟩ | ⟨target, grown, -, -, rfl⟩ <;> rfl

theorem flush_pending (run : h.flush math = .ok h') :
    h'.router.pending = h.router.pending.drop h.router.batchCapacity := by
  obtain ⟨g, routed, run⟩ := bind_ok run
  rw [handleDeferredResize_pending run]
  rcases flushRouter_ok routed with ⟨none, rfl⟩ | ⟨some, frontends, shards, route, processed, rfl⟩
  · rw [none, List.drop_nil]
  · rfl

/-- A flush gives every shard the slots of its sizes. -/
theorem flush_paced (coordinated : Coordinated c h) (run : h.flush math = .ok h') : ∃ units : List Bool,
    Paced c h units h' ∧ units.count false = flushSlots h.router := by
  obtain ⟨calls, flushed⟩ := flush_coordinated coordinated run
  refine ⟨List.replicate (flushSlots h.router) false ++ if asks calls then [true] else [], ?_, ?_⟩
  · have moves : (List.replicate (flushSlots h.router) false ++ if asks calls then [true] else []).map Counters.unit =
        flushMoves h calls := by
      rw [flushMoves, List.map_append, List.map_replicate, asks]
      split <;> rfl
    exact ⟨moves ▸ flushed.coordinated, flushed.framed, moves ▸ flushed.moved⟩
  · rw [List.count_append, List.count_replicate_self]
    split <;> rfl

/-- Whether an append flushes, and how many slots the shards get of it, depends on sizes alone. -/
theorem append_paced {key : List UInt8} {val : V} (coordinated : Coordinated c h) (run : h.append math key val = .ok h') :
    ∃ units : List Bool, Paced c h units h' ∧
      if h.router.batchCapacity ≤ h.router.pending.length + 1 then
        units.count false = h.router.frontendCount * (h.router.perShardQuota / h.router.frontendCount) ∧
          h'.router.pending.length = h.router.pending.length + 1 - h.router.batchCapacity
      else units.count false = 0 ∧ h'.router.pending.length = h.router.pending.length + 1 := by
  rw [append] at run
  simp only [List.length_append, List.length_singleton, ge_iff_le] at run
  split at run
  · rename_i full
    obtain ⟨units, paced, slots⟩ := flush_paced (coordinated.pending _) run
    have pending := congrArg List.length (flush_pending run)
    rw [List.length_drop, List.length_append, List.length_singleton] at pending
    refine ⟨units, ⟨paced.coordinated, ⟨paced.framed.prf, paced.framed.shardCount, paced.framed.batchCapacity,
      paced.framed.perShardQuota, paced.framed.frontendCount⟩, paced.moved⟩, ?_⟩
    rw [if_pos full]
    refine ⟨slots.trans ?_, pending⟩
    rw [flushSlots, if_neg (by simp)]
  · rename_i room
    obtain rfl := Except.ok.inj run
    refine ⟨[], ⟨coordinated.pending _, ⟨rfl, rfl, rfl, rfl, rfl⟩, List.forall₂_same.mpr fun tree _ => (Kept.refl tree).toMoved⟩,
      ?_⟩
    rw [if_neg room]
    exact ⟨rfl, by rw [List.length_append, List.length_singleton]⟩

omit [Add V] [Inhabited V] in
theorem SameSizes.framed (sizes : SameSizes h₁ h₂) (framed₁ : Framed h₁ h₁') (framed₂ : Framed h₂ h₂')
    (pending : h₁'.router.pending.length = h₂'.router.pending.length) : SameSizes h₁' h₂' :=
  ⟨framed₁.batchCapacity.trans (sizes.batchCapacity.trans framed₂.batchCapacity.symm),
    framed₁.perShardQuota.trans (sizes.perShardQuota.trans framed₂.perShardQuota.symm),
    framed₁.frontendCount.trans (sizes.frontendCount.trans framed₂.frontendCount.symm), pending⟩

/-- Two calls of one kind give the shards equally many slots. -/
theorem step_units {slack slack' : Nat → Nat → Nat → Nat} {op₁ op₂ : ShardedOp V} {out₁ out₂ : Option V}
    (coordinated₁ : Coordinated c₁ h₁) (coordinated₂ : Coordinated c₂ h₂) (sizes : SameSizes h₁ h₂)
    (call : SameCall op₁ op₂) (run₁ : h₁.step math slack op₁ = .ok (out₁, h₁'))
    (run₂ : h₂.step math slack' op₂ = .ok (out₂, h₂')) : ∃ units₁ units₂ : List Bool,
      units₁.count false = units₂.count false ∧ Paced c₁ h₁ units₁ h₁' ∧ Paced c₂ h₂ units₂ h₂' ∧ SameSizes h₁' h₂' := by
  cases call with
  | append key key' val val' =>
    obtain ⟨g₁, hg₁, same₁⟩ := map_ok run₁
    obtain ⟨g₂, hg₂, same₂⟩ := map_ok run₂
    obtain ⟨-, rfl⟩ := Prod.mk.inj same₁
    obtain ⟨-, rfl⟩ := Prod.mk.inj same₂
    obtain ⟨units₁, paced₁, counts₁⟩ := append_paced coordinated₁ hg₁
    obtain ⟨units₂, paced₂, counts₂⟩ := append_paced coordinated₂ hg₂
    rw [← sizes.batchCapacity, ← sizes.perShardQuota, ← sizes.frontendCount, ← sizes.pending] at counts₂
    have equal : units₁.count false = units₂.count false ∧ h₁'.router.pending.length = h₂'.router.pending.length := by
      by_cases full : h₁.router.batchCapacity ≤ h₁.router.pending.length + 1
      · rw [if_pos full] at counts₁ counts₂
        exact ⟨counts₁.1.trans counts₂.1.symm, counts₁.2.trans counts₂.2.symm⟩
      · rw [if_neg full] at counts₁ counts₂
        exact ⟨counts₁.1.trans counts₂.1.symm, counts₁.2.trans counts₂.2.symm⟩
    exact ⟨units₁, units₂, equal.1, paced₁, paced₂, sizes.framed paced₁.framed paced₂.framed equal.2⟩
  | flush =>
    obtain ⟨g₁, hg₁, same₁⟩ := map_ok run₁
    obtain ⟨g₂, hg₂, same₂⟩ := map_ok run₂
    obtain ⟨-, rfl⟩ := Prod.mk.inj same₁
    obtain ⟨-, rfl⟩ := Prod.mk.inj same₂
    obtain ⟨units₁, paced₁, slots₁⟩ := flush_paced coordinated₁ hg₁
    obtain ⟨units₂, paced₂, slots₂⟩ := flush_paced coordinated₂ hg₂
    refine ⟨units₁, units₂, slots₁.trans (sizes.flushSlots.trans slots₂.symm), paced₁, paced₂,
      sizes.framed paced₁.framed paced₂.framed ?_⟩
    rw [flush_pending hg₁, flush_pending hg₂, List.length_drop, List.length_drop, sizes.pending, sizes.batchCapacity]

theorem run_units {slack slack' : Nat → Nat → Nat → Nat} {ops₁ ops₂ : List (ShardedOp V)} {outs₁ outs₂ : List (Option V)}
    (coordinated₁ : Coordinated c₁ h₁) (coordinated₂ : Coordinated c₂ h₂) (sizes : SameSizes h₁ h₂)
    (calls : List.Forall₂ SameCall ops₁ ops₂) (run₁ : h₁.run math slack ops₁ = .ok (outs₁, h₁'))
    (run₂ : h₂.run math slack' ops₂ = .ok (outs₂, h₂')) : ∃ units₁ units₂ : List Bool,
      units₁.count false = units₂.count false ∧ Paced c₁ h₁ units₁ h₁' ∧ Paced c₂ h₂ units₂ h₂' ∧ SameSizes h₁' h₂' := by
  induction calls generalizing h₁ h₂ c₁ c₂ outs₁ outs₂ with
  | nil =>
    simp only [run, Except.ok.injEq, Prod.mk.injEq] at run₁ run₂
    obtain ⟨-, rfl⟩ := run₁
    obtain ⟨-, rfl⟩ := run₂
    exact ⟨[], [], rfl, ⟨coordinated₁, .refl _, List.forall₂_same.mpr fun tree _ => (Kept.refl tree).toMoved⟩,
      ⟨coordinated₂, .refl _, List.forall₂_same.mpr fun tree _ => (Kept.refl tree).toMoved⟩, sizes⟩
  | cons call calls ih =>
    obtain ⟨out₁, outs₁', m₁, first₁, tail₁, -⟩ := run_cons run₁
    obtain ⟨out₂, outs₂', m₂, first₂, tail₂, -⟩ := run_cons run₂
    obtain ⟨us₁, us₂, slots, paced₁, paced₂, sizes'⟩ := step_units coordinated₁ coordinated₂ sizes call first₁ first₂
    obtain ⟨vs₁, vs₂, slots', later₁, later₂, sizes''⟩ := ih paced₁.coordinated paced₂.coordinated sizes' tail₁ tail₂
    refine ⟨us₁ ++ vs₁, us₂ ++ vs₂, ?_, paced₁.trans later₁, paced₂.trans later₂, sizes''⟩
    rw [List.count_append, List.count_append, slots, slots']

/-- Shards with the same public fields, after appends and flushes that differ in their data only. -/
theorem run_oblivious {slack slack' : Nat → Nat → Nat → Nat} {ops₁ ops₂ : List (ShardedOp V)}
    {outs₁ outs₂ : List (Option V)} (reachable₁ : Reachable math h₁) (reachable₂ : Reachable math h₂)
    (same : SamePublic h₁ h₂) (calls : List.Forall₂ SameCall ops₁ ops₂)
    (run₁ : h₁.run math slack ops₁ = .ok (outs₁, h₁')) (run₂ : h₂.run math slack' ops₂ = .ok (outs₂, h₂'))
    (decided : decisions h₁ h₁' = decisions h₂ h₂') :
    shownSince h₁ h₁' = shownSince h₂ h₂' ∧ SamePublic h₁' h₂' := by
  obtain ⟨c₁, coordinated₁⟩ := reachable₁.coordinated
  obtain ⟨c₂, coordinated₂⟩ := reachable₂.coordinated
  have count := same.shards.length_eq
  obtain ⟨first₁, rest₁, shards₁, coordinator₁, -⟩ := coordinated₁.shards
  obtain ⟨first₂, rest₂, shards₂, coordinator₂, -⟩ := coordinated₂.shards
  have counters : c₁ = c₂ := by
    have heads := same.shards
    rw [shards₁, shards₂] at heads
    rw [← coordinator₁.counters, ← coordinator₂.counters]
    exact (List.forall₂_cons.mp heads).1.counters
  obtain ⟨units₁, units₂, slots, paced₁, paced₂, sizes⟩ := run_units coordinated₁ coordinated₂ same.toSameSizes calls run₁ run₂
  rw [decisions, decisions, paced₁.shownSince coordinated₁, paced₂.shownSince coordinated₂, shards₁, shards₂] at decided
  obtain rfl := Counters.units_unique slots (Option.some.inj decided)
  refine ⟨?_, sizes, ?_⟩
  · rw [paced₁.shownSince coordinated₁, paced₂.shownSince coordinated₂, count, counters]
  · have aligned₁ := paced₁.coordinated
    have aligned₂ := paced₂.coordinated
    rw [← counters] at aligned₂
    rw [List.forall₂_iff_get]
    refine ⟨?_, fun i hi₁ hi₂ => ?_⟩
    · rw [← paced₁.moved.length_eq, ← paced₂.moved.length_eq, count]
    · obtain ⟨inv₁, counters₁, -⟩ := aligned₁.all _ (List.get_mem _ ⟨i, hi₁⟩)
      obtain ⟨inv₂, counters₂, -⟩ := aligned₂.all _ (List.get_mem _ ⟨i, hi₂⟩)
      exact .of_counters inv₁ inv₂ (counters₁.trans counters₂.symm)

/-- The slots of a flush, however many different keys the batch holds. -/
theorem flush_slots {pending : List (OramBlock K V)} (reachable : Reachable math h) (some : pending ≠ [])
    (run : ({ h with router := { h.router with pending } } : ShardedObliviousHistogram Z K A S V).flush math = .ok h') :
    ∀ shown ∈ shownSince h h',
      shown.count .slot = h.router.frontendCount * (h.router.perShardQuota / h.router.frontendCount) := by
  obtain ⟨c, coordinated⟩ := reachable.coordinated
  obtain ⟨units, paced, slots⟩ := flush_paced (coordinated.pending pending) run
  intro shown member
  have seen := paced.shownSince (coordinated.pending pending)
  rw [show shownSince h h' = _ from seen] at member
  rw [List.eq_of_mem_replicate member]
  have count := (Counters.shown_units (A := A) c units.reverse).1
  rw [List.reverse_reverse, List.count_reverse] at count
  rw [count, slots, flushSlots, if_neg (by simpa using some)]

end ShardedObliviousHistogram

/-- The schedule of appends and flushes does not depend on keys and values: what is seen of a
tree, what is seen of the shards, and the slots that every flush gives to every shard. -/
theorem schedule_independent [Add V] [Inhabited V] (math : ResizeMath) :
    (∀ {h₁ h₁' h₂ h₂' : ObliviousHistogram Z K A S V} {ops₁ ops₂ : List (TreeOp K V)} {outs₁ outs₂ : List (Option V)},
      ObliviousHistogram.Reachable math h₁ → ObliviousHistogram.Reachable math h₂ → ObliviousHistogram.SamePublic h₁ h₂ →
      List.Forall₂ ObliviousHistogram.SameCall ops₁ ops₂ → h₁.run math ops₁ = .ok (outs₁, h₁') →
      h₂.run math ops₂ = .ok (outs₂, h₂') → growthSlots (h₁.shownSince h₁') = growthSlots (h₂.shownSince h₂') →
      h₁.shownSince h₁' = h₂.shownSince h₂' ∧ ObliviousHistogram.SamePublic h₁' h₂') ∧
    (∀ {h₁ h₁' h₂ h₂' : ShardedObliviousHistogram Z K A S V} {slack slack' : Nat → Nat → Nat → Nat}
      {ops₁ ops₂ : List (ShardedOp V)} {outs₁ outs₂ : List (Option V)}, ShardedObliviousHistogram.Reachable math h₁ →
      ShardedObliviousHistogram.Reachable math h₂ → ShardedObliviousHistogram.SamePublic h₁ h₂ →
      List.Forall₂ ShardedObliviousHistogram.SameCall ops₁ ops₂ → h₁.run math slack ops₁ = .ok (outs₁, h₁') →
      h₂.run math slack' ops₂ = .ok (outs₂, h₂') → h₁.decisions h₁' = h₂.decisions h₂' →
      h₁.shownSince h₁' = h₂.shownSince h₂' ∧ ShardedObliviousHistogram.SamePublic h₁' h₂') ∧
    (∀ {h h' : ShardedObliviousHistogram Z K A S V} {pending : List (OramBlock K V)},
      ShardedObliviousHistogram.Reachable math h → pending ≠ [] →
      ({ h with router := { h.router with pending } } : ShardedObliviousHistogram Z K A S V).flush math = .ok h' →
      ∀ shown ∈ h.shownSince h',
        shown.count .slot = h.router.frontendCount * (h.router.perShardQuota / h.router.frontendCount)) := by
  refine ⟨?_, ?_, ?_⟩
  · intro h₁ h₁' h₂ h₂' ops₁ ops₂ outs₁ outs₂ reachable₁ reachable₂ same calls run₁ run₂ decided
    exact ObliviousHistogram.run_oblivious reachable₁ reachable₂ same calls run₁ run₂ decided
  · intro h₁ h₁' h₂ h₂' slack slack' ops₁ ops₂ outs₁ outs₂ reachable₁ reachable₂ same calls run₁ run₂ decided
    exact ShardedObliviousHistogram.run_oblivious reachable₁ reachable₂ same calls run₁ run₂ decided
  · intro h h' pending reachable some run
    exact ShardedObliviousHistogram.flush_slots reachable some run

/-- One tree with one key twice and with two keys, and shards with a batch of one key and of two. -/
theorem schedule_independent_two_keys :
    (∃ h h₁ h₂ : ObliviousHistogram 1 1 1 4 Nat, (∃ outs, h.run .constant [.append [1] 5, .append [1] 3] = .ok (outs, h₁)) ∧
      (∃ outs, h.run .constant [.append [1] 5, .append [2] 3] = .ok (outs, h₂)) ∧ h.shownSince h₁ = h.shownSince h₂) ∧
    (∃ h h₁ h₂ : ShardedObliviousHistogram 1 1 1 4 Nat,
      (∃ outs, h.run .constant (fun _ _ _ => 0) [.append [1] 5, .append [1] 3] = .ok (outs, h₁)) ∧
      (∃ outs, h.run .constant (fun _ _ _ => 0) [.append [1] 5, .append [2] 3] = .ok (outs, h₂)) ∧
      h.shownSince h₁ = h.shownSince h₂) := by
  constructor
  · have runs : ((do
        let (outs, h) ← (ObliviousHistogram.runNew .constant 2 id [] :
          Except Panic (List (Option Nat) × ObliviousHistogram 1 1 1 4 Nat))
        let (outs₁, h₁) ← h.run .constant [.append [1] 5, .append [1] 3]
        let (outs₂, h₂) ← h.run .constant [.append [1] 5, .append [2] 3]
        return ((outs, outs₁, outs₂), h, h₁, h₂) : Except Panic _).toOption.map fun runs =>
          (growthSlots (runs.2.1.shownSince runs.2.2.1), growthSlots (runs.2.1.shownSince runs.2.2.2))) = some ([], []) := by
      decide +kernel
    obtain ⟨runs, ran, decided⟩ := Option.map_eq_some_iff.mp runs
    obtain ⟨⟨outs, h⟩, start, ran⟩ := ObliviousHistogram.bind_ok (eq_ok_of_toOption ran)
    obtain ⟨⟨outs₁, h₁⟩, run₁, ran⟩ := ObliviousHistogram.bind_ok ran
    obtain ⟨⟨outs₂, h₂⟩, run₂, ran⟩ := ObliviousHistogram.bind_ok ran
    obtain rfl := Except.ok.inj ran
    obtain ⟨decided₁, decided₂⟩ := Prod.mk.inj decided
    have reachable : ObliviousHistogram.Reachable .constant h := ⟨2, id, [], outs, start⟩
    exact ⟨h, h₁, h₂, ⟨outs₁, run₁⟩, ⟨outs₂, run₂⟩, ((schedule_independent .constant).1 reachable reachable
      ⟨rfl, rfl, rfl, rfl, rfl, rfl, rfl⟩ (.cons (.append ..) (.cons (.append ..) .nil)) run₁ run₂
      (decided₁.trans decided₂.symm)).1⟩
  · have runs : ((do
        let (outs, h) ← (ShardedObliviousHistogram.runNew .constant (fun _ _ _ => 0) 1 [id, id] 4 2 2 1 id [] :
          Except Panic (List (Option Nat) × ShardedObliviousHistogram 1 1 1 4 Nat))
        let (outs₁, h₁) ← h.run .constant (fun _ _ _ => 0) [.append [1] 5, .append [1] 3]
        let (outs₂, h₂) ← h.run .constant (fun _ _ _ => 0) [.append [1] 5, .append [2] 3]
        return ((outs, outs₁, outs₂), h, h₁, h₂) : Except Panic _).toOption.map fun runs =>
          (runs.2.1.decisions runs.2.2.1, runs.2.1.decisions runs.2.2.2)) = some (some [], some []) := by
      decide +kernel
    obtain ⟨runs, ran, decided⟩ := Option.map_eq_some_iff.mp runs
    obtain ⟨⟨outs, h⟩, start, ran⟩ := ObliviousHistogram.bind_ok (eq_ok_of_toOption ran)
    obtain ⟨⟨outs₁, h₁⟩, run₁, ran⟩ := ObliviousHistogram.bind_ok ran
    obtain ⟨⟨outs₂, h₂⟩, run₂, ran⟩ := ObliviousHistogram.bind_ok ran
    obtain rfl := Except.ok.inj ran
    obtain ⟨decided₁, decided₂⟩ := Prod.mk.inj decided
    have reachable : ShardedObliviousHistogram.Reachable .constant h := ⟨_, 1, [id, id], 4, 2, 2, 1, id, [], outs, start⟩
    exact ⟨h, h₁, h₂, ⟨outs₁, run₁⟩, ⟨outs₂, run₂⟩, ((schedule_independent .constant).2.1 reachable reachable
      ⟨⟨rfl, rfl, rfl, rfl⟩, List.forall₂_same.mpr fun _ _ => ⟨rfl, rfl, rfl, rfl, rfl, rfl, rfl⟩⟩
      (.cons (.append ..) (.cons (.append ..) .nil)) run₁ run₂ (decided₁.trans decided₂.symm)).1⟩

end Roga
