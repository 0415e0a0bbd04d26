import Roga.Sharded.Coordination

/-! What the sharded layer and its shards agree on after every run: the shards on their
counters, the cached fields with the shards as far as the growths went through `grow`. -/
namespace Roga
open Ct ObliviousHistogram
variable {Z K A S : Nat} {V : Type} {math : ResizeMath}

namespace Counters

theorem run_slots (c : Counters) (n : Nat) : (c.run A (List.replicate n (.slot false))).height = c.height ∧
    (c.run A (List.replicate n (.slot false))).epoch = c.epoch := by
  induction n generalizing c with
  | zero => exact ⟨rfl, rfl⟩
  | succ n ih =>
    have slot : (c.move A (.slot false)).height = c.height ∧ (c.move A (.slot false)).epoch = c.epoch := by
      rw [move]
      split <;> exact ⟨rfl, rfl⟩
    obtain ⟨height, epoch⟩ := ih (c.move A (.slot false))
    rw [List.replicate_succ, run_cons]
    exact ⟨height.trans slot.1, epoch.trans slot.2⟩

end Counters

namespace ShardedObliviousHistogram
variable {h h' g : ShardedObliviousHistogram Z K A S V} {c c' : Counters}

/-- The calls of `evaluate_signal` that the coordinator has made, latest first. -/
def signals (h : ShardedObliviousHistogram Z K A S V) : List (Nat × Option Nat) :=
  (h.router.shards.head?.map fun tree => signalsOf tree.trace).getD []

/-- Whether one of the calls has asked for a growth. -/
def asks (calls : List (Nat × Option Nat)) : Bool := calls.any fun call => call.2.isSome

/-- The fields that the growths of an operation change: the one of `grow` and the one the
coordinator's calls ask for. -/
structure Bookkept (manual : Bool) (calls : List (Nat × Option Nat)) (c : Counters) (h : ShardedObliviousHistogram Z K A S V)
    (c' : Counters) (h' : ShardedObliviousHistogram Z K A S V) : Prop where
  epoch : h'.epoch = if manual then saturatingSucc h.epoch else h.epoch
  capacity : h'.capacity = if manual || asks calls then h.capacity * 2 else h.capacity
  sizeInBytes : h'.sizeInBytes = if manual || asks calls then h.sizeInBytes * 2 else h.sizeInBytes
  height : c'.height = c.height + if manual || asks calls then 1 else 0
  shardEpoch : c'.epoch = if manual || asks calls then saturatingSucc c.epoch else c.epoch
  signals : h'.signals = calls ++ h.signals

/-- One operation takes all shards to the same counters. -/
structure Stepped (h : ShardedObliviousHistogram Z K A S V) (c : Counters) (h' : ShardedObliviousHistogram Z K A S V)
    (c' : Counters) : Prop where
  coordinated : Coordinated c' h'
  framed : Framed h h'
  bookkept : ∃ manual calls, Bookkept manual calls c h c' h' ∧ (manual = true → calls = [])

theorem flushMoves_counters (h : ShardedObliviousHistogram Z K A S V) (calls : List (Nat × Option Nat)) (c : Counters) :
    (c.run A (flushMoves h calls)).height = c.height + (if asks calls then 1 else 0) ∧
      (c.run A (flushMoves h calls)).epoch = if asks calls then saturatingSucc c.epoch else c.epoch := by
  obtain ⟨height, epoch⟩ := Counters.run_slots c (flushSlots h.router)
  rw [flushMoves, Counters.run_append, asks]
  split
  · exact ⟨congrArg (· + 1) height, congrArg saturatingSucc epoch⟩
  · exact ⟨height, epoch⟩

theorem signals_of_head {first first' : ObliviousHistogram Z K A S V} {calls : List (Nat × Option Nat)}
    (head : h.router.shards.head? = some first) (head' : h'.router.shards.head? = some first')
    (same : signalsOf first'.trace = calls ++ signalsOf first.trace) : h'.signals = calls ++ h.signals := by
  rw [signals, signals, head, head']
  exact same

/-- What is kept when nothing grows. -/
theorem Bookkept.refl (c : Counters) (h : ShardedObliviousHistogram Z K A S V) : Bookkept false [] c h c h :=
  ⟨rfl, rfl, rfl, rfl, rfl, rfl⟩

theorem Stepped.of_kept (coordinated : Coordinated c h') (framed : Framed h h') (epoch : h'.epoch = h.epoch)
    (capacity : h'.capacity = h.capacity) (sizeInBytes : h'.sizeInBytes = h.sizeInBytes)
    (signals : h'.signals = h.signals) : Stepped h c h' c :=
  ⟨coordinated, framed, false, [], ⟨epoch, capacity, sizeInBytes, rfl, rfl, signals⟩, fun _ => rfl⟩

section Step
variable [Add V] [Inhabited V]

theorem flush_stepped (coordinated : Coordinated c h) (run : h.flush math = .ok h') : ∃ c', Stepped h c h' c' := by
  obtain ⟨calls, flushed⟩ := flush_coordinated coordinated run
  obtain ⟨height, epoch⟩ := flushMoves_counters h calls c
  obtain ⟨first, first', head, head', same⟩ := flushed.calls
  refine ⟨_, flushed.coordinated, flushed.framed, false, calls, ?_, fun manual => absurd manual Bool.false_ne_true⟩
  exact ⟨flushed.epoch, flushed.capacity, flushed.sizeInBytes, height, epoch, signals_of_head head head' same⟩

theorem append_stepped {key : List UInt8} {val : V} (coordinated : Coordinated c h) (run : h.append math key val = .ok h') :
    ∃ c', Stepped h c h' c' := by
  obtain ⟨pending, rfl | flushed⟩ := append_cases run
  · exact ⟨c, .of_kept (coordinated.pending pending) ⟨rfl, rfl, rfl, rfl, rfl⟩ rfl rfl rfl rfl⟩
  · obtain ⟨c', step⟩ := flush_stepped (coordinated.pending pending) flushed
    obtain ⟨manual, calls, kept, alone⟩ := step.bookkept
    have framed : Framed h { h with router := { h.router with pending } } := ⟨rfl, rfl, rfl, rfl, rfl⟩
    exact ⟨c', step.coordinated, framed.trans step.framed, manual, calls, ⟨kept.epoch, kept.capacity, kept.sizeInBytes,
      kept.height, kept.shardEpoch, kept.signals⟩, alone⟩

theorem readTotal_stepped {key : List UInt8} {draws : Nat → Nat} {v : V} (coordinated : Coordinated c h)
    (run : h.readTotal math key draws = .ok (v, h')) : ∃ c', Stepped h c h' c' := by
  obtain ⟨g, flushed, run⟩ := bind_ok run
  obtain ⟨⟨result, shards⟩, read, run⟩ := bind_ok run
  simp only [pure, Except.pure, Except.ok.injEq, Prod.mk.injEq] at run
  obtain ⟨rfl, rfl⟩ := run
  obtain ⟨c', step⟩ := flush_stepped coordinated flushed
  have all := readShards_idle read
  obtain ⟨manual, calls, kept, alone⟩ := step.bookkept
  have framed : Framed g { g with router := { g.router with shards } } := ⟨rfl, rfl, rfl, rfl, rfl⟩
  refine ⟨c', step.coordinated.of_shards rfl framed rfl ?_, step.framed.trans framed, manual, calls, ?_, alone⟩
  · exact all.imp fun tree tree' each => each.1 c'
  · refine ⟨kept.epoch, kept.capacity, kept.sizeInBytes, kept.height, kept.shardEpoch, Eq.trans ?_ kept.signals⟩
    rw [signals, signals]
    cases shards : g.router.shards with
    | nil =>
      rw [shards] at all
      cases all
      rfl
    | cons first rest =>
      rw [shards] at all
      obtain ⟨first', rest', head, tail, shards'⟩ := List.forall₂_cons_left_iff.mp all
      obtain ⟨-, -, same⟩ := head
      rw [shards']
      exact same

theorem grow_stepped (coordinated : Coordinated c h) (run : h.grow math = .ok h') : Stepped h c h' c.grow := by
  obtain ⟨aligned, framed⟩ := grow_coordinated coordinated run
  obtain ⟨shards', grown, run⟩ := bind_ok run
  simp only [pure, Except.pure, Except.ok.injEq] at run
  subst run
  refine ⟨aligned, framed, true, [], ⟨rfl, rfl, rfl, rfl, rfl, ?_⟩, fun _ => rfl⟩
  have all := forEachShard_ok grown
  rw [signals, signals]
  cases shards : h.router.shards with
  | nil =>
    rw [shards] at all
    cases all
    rfl
  | cons first rest =>
    rw [shards] at all
    obtain ⟨first', rest', head, tail, rfl⟩ := List.forall₂_cons_left_iff.mp all
    exact (grow_grown head).signals

theorem enableAutoResize_stepped {slack : Nat → Nat → Nat → Nat} {cfg : AutoResizeConfig} (coordinated : Coordinated c h)
    (run : h.enableAutoResize math slack cfg = .ok h') : Stepped h c h' c := by
  obtain ⟨aligned, framed⟩ := enableAutoResize_coordinated coordinated run
  obtain ⟨shards', enabled, run⟩ := bind_ok run
  simp only [pure, Except.pure, Except.ok.injEq] at run
  subst run
  refine .of_kept aligned framed rfl rfl rfl ?_
  rw [signals, signals]
  cases shards : h.router.shards with
  | nil =>
    rw [shards] at enabled
    obtain rfl := Except.ok.inj enabled
    rfl
  | cons first rest =>
    rw [shards] at enabled
    obtain ⟨first', head, enabled⟩ := bind_ok enabled
    obtain ⟨rest', tail, rfl⟩ := map_ok enabled
    obtain ⟨sampler, -, -, rfl⟩ := configureAutoResize_spec head
    rfl

/-- Every operation takes all shards to the same counters. -/
theorem step_stepped {slack : Nat → Nat → Nat → Nat} {op : ShardedOp V} {out : Option V} (coordinated : Coordinated c h)
    (run : h.step math slack op = .ok (out, h')) : ∃ c', Stepped h c h' c' := by
  cases op with
  | append key val =>
    obtain ⟨g, appended, run⟩ := bind_ok run
    simp only [pure, Except.pure, Except.ok.injEq, Prod.mk.injEq] at run
    obtain ⟨-, rfl⟩ := run
    exact append_stepped coordinated appended
  | flush =>
    obtain ⟨g, flushed, run⟩ := bind_ok run
    simp only [pure, Except.pure, Except.ok.injEq, Prod.mk.injEq] at run
    obtain ⟨-, rfl⟩ := run
    exact flush_stepped coordinated flushed
  | readTotal key draws =>
    obtain ⟨⟨v, g⟩, read, run⟩ := bind_ok run
    simp only [pure, Except.pure, Except.ok.injEq, Prod.mk.injEq] at run
    obtain ⟨-, rfl⟩ := run
    exact readTotal_stepped coordinated read
  | grow =>
    obtain ⟨g, grown, run⟩ := bind_ok run
    simp only [pure, Except.pure, Except.ok.injEq, Prod.mk.injEq] at run
    obtain ⟨-, rfl⟩ := run
    exact ⟨_, grow_stepped coordinated grown⟩
  | enableAutoResize cfg =>
    obtain ⟨g, enabled, run⟩ := bind_ok run
    simp only [pure, Except.pure, Except.ok.injEq, Prod.mk.injEq] at run
    obtain ⟨-, rfl⟩ := run
    exact ⟨_, enableAutoResize_stepped coordinated enabled⟩

theorem run_cons {slack : Nat → Nat → Nat → Nat} {op : ShardedOp V} {ops : List (ShardedOp V)} {outs : List (Option V)}
    (hrun : h.run math slack (op :: ops) = .ok (outs, h')) : ∃ out outs' g,
      h.step math slack op = .ok (out, g) ∧ g.run math slack ops = .ok (outs', h') ∧ outs = out :: outs' := by
  obtain ⟨⟨out, g⟩, first, hrun⟩ := bind_ok hrun
  obtain ⟨⟨outs', last⟩, rest, hrun⟩ := bind_ok hrun
  simp only [pure, Except.pure, Except.ok.injEq, Prod.mk.injEq] at hrun
  obtain ⟨rfl, rfl⟩ := hrun
  exact ⟨out, outs', g, first, rest, rfl⟩

/-- A property that every step of the coordinated shards preserves holds after every run. -/
theorem run_induct {slack : Nat → Nat → Nat → Nat} {P : Counters → ShardedObliviousHistogram Z K A S V → Prop}
    (preserved : ∀ h c h' c', Coordinated c h → Stepped h c h' c' → P c h → P c' h') {ops : List (ShardedOp V)}
    {outs : List (Option V)} (coordinated : Coordinated c h) (initial : P c h)
    (hrun : h.run math slack ops = .ok (outs, h')) : ∃ c', Coordinated c' h' ∧ P c' h' := by
  induction ops generalizing h c outs with
  | nil =>
    simp only [run, Except.ok.injEq, Prod.mk.injEq] at hrun
    obtain ⟨-, rfl⟩ := hrun
    exact ⟨c, coordinated, initial⟩
  | cons op ops ih =>
    obtain ⟨out, outs', m, first, rest, -⟩ := run_cons hrun
    obtain ⟨c', step⟩ := step_stepped coordinated first
    exact ih step.coordinated (preserved h c m c' coordinated step initial) rest

end Step

/-- Equal public fields in all shards, and no growth that waits. -/
structure Lockstep (h : ShardedObliviousHistogram Z K A S V) : Prop where
  equal : ∀ tree ∈ h.router.shards, ∀ tree' ∈ h.router.shards, tree.height = tree'.height ∧ tree.epoch = tree'.epoch ∧
    tree.appendCtr = tree'.appendCtr ∧ tree.evictCtr = tree'.evictCtr ∧ tree.sweepEnd = tree'.sweepEnd ∧
    tree.readoutLen = tree'.readoutLen
  settled : ∀ tree ∈ h.router.shards, tree.pendingGrow = none

theorem Coordinated.all (coordinated : Coordinated c h) : ∀ tree ∈ h.router.shards,
    (tree.Inv fun _ => True) ∧ tree.counters = c ∧ tree.pendingGrow = none := by
  obtain ⟨first, rest, shards, coordinator, others⟩ := coordinated.shards
  rw [shards]
  exact List.forall_mem_cons.mpr ⟨⟨coordinator.inv, coordinator.counters, coordinator.idle⟩, fun tree htree =>
    ⟨(others tree htree).inv, (others tree htree).counters, (others tree htree).idle⟩⟩

theorem Coordinated.lockstep (coordinated : Coordinated c h) : Lockstep h := by
  refine ⟨fun tree htree tree' htree' => ?_, fun tree htree => (coordinated.all tree htree).2.2⟩
  obtain ⟨inv, counters, -⟩ := coordinated.all tree htree
  obtain ⟨inv', counters', -⟩ := coordinated.all tree' htree'
  have same : tree.counters = tree'.counters := counters.trans counters'.symm
  have height : tree.height = tree'.height := congrArg Counters.height same
  refine ⟨height, congrArg Counters.epoch same, congrArg Counters.appendCtr same, congrArg Counters.evictCtr same,
    congrArg Counters.sweepEnd same, ?_⟩
  rw [ObliviousHistogram.readoutLen, ObliviousHistogram.readoutLen, inv.shape.memory, inv'.shape.memory,
    inv.shape.slots, inv'.shape.slots, height, Nat.add_sub_cancel_left, Nat.add_sub_cancel_left]

/-- Whatever the other shards hold, all of them grow by the levels the coordinator asks for. -/
def GrowsAsAsked (math : ResizeMath) [Add V] [Inhabited V] (h : ShardedObliviousHistogram Z K A S V) : Prop :=
  ∀ h', h.flush math = .ok h' → ∃ calls, h'.signals = calls ++ h.signals ∧
    List.Forall₂ (fun tree tree' => tree'.height = tree.height + if asks calls then 1 else 0) h.router.shards h'.router.shards

variable [Add V] [Inhabited V]

theorem Coordinated.growsAsAsked (coordinated : Coordinated c h) : GrowsAsAsked math h := by
  intro h' run
  obtain ⟨calls, flushed⟩ := flush_coordinated coordinated run
  obtain ⟨first, first', head, head', same⟩ := flushed.calls
  refine ⟨calls, signals_of_head head head' same, flushed.moved.imp fun tree tree' moved => ?_⟩
  have height := congrArg Counters.height moved.counters
  rw [(flushMoves_counters h calls tree.counters).1] at height
  exact height

/-- The shards move in lockstep. The flush of an append sees more updates than are pending
before it, so the growths are those of a flush with any pending updates. -/
theorem shards_lockstep {blockSize total batchSize quota frontends : Nat} {prfs : List Aes128} {prf : Aes128}
    {slack : Nat → Nat → Nat → Nat} {ops : List (ShardedOp V)} {outs : List (Option V)}
    (start : newWithFrontends blockSize prfs total batchSize quota frontends prf = .ok h)
    (hrun : h.run math slack ops = .ok (outs, h')) : Lockstep h' ∧
      ∀ pending, GrowsAsAsked math
        ({ h' with router := { h'.router with pending } } : ShardedObliviousHistogram Z K A S V) := by
  obtain ⟨height, -, coordinated, -⟩ := newWithFrontends_coordinated start
  obtain ⟨c', after, -⟩ := run_induct (P := fun _ _ => True) (fun _ _ _ _ _ _ _ => trivial) coordinated trivial hrun
  exact ⟨after.lockstep, fun pending => (after.pending pending).growsAsAsked⟩

/-- A run of a new sharded histogram. -/
def runNew (math : ResizeMath) (slack : Nat → Nat → Nat → Nat) (blockSize : Nat) (prfs : List Aes128)
    (total batchSize quota frontends : Nat) (prf : Aes128) (ops : List (ShardedOp V)) :
    Except Panic (List (Option V) × ShardedObliviousHistogram Z K A S V) := do
  let h ← newWithFrontends blockSize prfs total batchSize quota frontends prf
  h.run math slack ops

end ShardedObliviousHistogram

open ShardedObliviousHistogram

/-- With the fixed formulas every counted block asks for a growth. -/
theorem shards_lockstep_two : ∃ (outs : List (Option Nat)) (h' : ShardedObliviousHistogram 1 1 1 4 Nat),
    runNew .constant (fun _ _ _ => 0) 1 [id, id] 4 1 2 1 id
        [.enableAutoResize ⟨1, 1, 0.01, 0⟩, .append [1] 5, .append [2] 3] = .ok (outs, h') ∧
      Lockstep h' ∧ ∀ pending, GrowsAsAsked .constant
        ({ h' with router := { h'.router with pending } } : ShardedObliviousHistogram 1 1 1 4 Nat) := by
  have run : (runNew .constant (fun _ _ _ => 0) 1 [id, id] 4 1 2 1 id
    [.enableAutoResize ⟨1, 1, 0.01, 0⟩, .append [1] 5, .append [2] 3] :
    Except Panic (List (Option Nat) × ShardedObliviousHistogram 1 1 1 4 Nat)).toBool = true := by decide +kernel
  obtain ⟨⟨outs, h'⟩, run⟩ := exists_of_toBool run
  obtain ⟨h, start, hrun⟩ := bind_ok run
  exact ⟨outs, h', run, shards_lockstep start hrun⟩

namespace ShardedObliviousHistogram
variable {h h' : ShardedObliviousHistogram Z K A S V} {c c' : Counters} {blockSize total : Nat}

/-- The cached fields are those of the shards. -/
structure CachesExact (blockSize : Nat) (h : ShardedObliviousHistogram Z K A S V) : Prop where
  epoch : ∀ tree ∈ h.router.shards, tree.epoch = h.epoch
  capacity : h.totalCapacity = (h.router.shards.map ObliviousHistogram.capacity).sum
  sizeInBytes : h.sizeInBytes = (h.router.shards.map (ObliviousHistogram.sizeInBytes blockSize)).sum

/-- The cached fields after the growths of the shards, which `base` levels started with. -/
structure Cached (blockSize total count base : Nat) (c : Counters) (h : ShardedObliviousHistogram Z K A S V) : Prop where
  shards : h.router.shardCount = count
  height : c.height = base + c.epoch.toNat
  capacity : h.capacity = total * 2 ^ c.epoch.toNat
  sizeInBytes : h.sizeInBytes = count * (2 ^ (c.height + 1) * Z * blockSize)
  epoch_le : h.epoch.toNat ≤ c.epoch.toNat
  -- the cached epoch misses the growths that the coordinator asks for
  epoch_iff : h.epoch.toNat = c.epoch.toNat ↔ asks h.signals = false

theorem saturatingSucc_toNat {epoch : UInt8} (room : epoch.toNat < 255) :
    (saturatingSucc epoch).toNat = epoch.toNat + 1 := by
  rw [saturatingSucc, if_neg fun full => by rw [full] at room; exact absurd room (by decide), UInt8.toNat_add]
  exact Nat.mod_eq_of_lt (Nat.succ_lt_succ room)

theorem Coordinated.height_le (coordinated : Coordinated c h) : c.height ≤ 31 := by
  obtain ⟨first, rest, -, coordinator, -⟩ := coordinated.shards
  have height := coordinator.inv.shape.height_le
  rwa [← coordinator.counters]

theorem Cached.step {count base : Nat} (cached : Cached blockSize total count base c h) (step : Stepped h c h' c') :
    Cached blockSize total count base c' h' := by
  obtain ⟨manual, calls, kept, alone⟩ := step.bookkept
  have small := step.coordinated.height_le
  have height := cached.height
  have raise : asks h'.signals = (asks calls || asks h.signals) := by
    rw [kept.signals, asks, List.any_append]
    rfl
  cases grows : manual || asks calls with
  | false =>
    obtain ⟨rfl, quiet⟩ := Bool.or_eq_false_iff.mp grows
    obtain ⟨epoch, capacity, size, level, shardEpoch, -⟩ := kept
    simp only [quiet, Bool.or_self, Bool.false_eq_true, if_false] at epoch capacity size level shardEpoch
    refine ⟨step.framed.shardCount.trans cached.shards, ?_, ?_, ?_, ?_, ?_⟩
    · rw [level, shardEpoch]
      exact height
    · rw [capacity, shardEpoch]
      exact cached.capacity
    · rw [size, level]
      exact cached.sizeInBytes
    · rw [epoch, shardEpoch]
      exact cached.epoch_le
    · rw [epoch, shardEpoch, raise, quiet, Bool.false_or]
      exact cached.epoch_iff
  | true =>
    obtain ⟨epoch, capacity, size, level, shardEpoch, -⟩ := kept
    rw [if_pos grows] at capacity size level shardEpoch
    have next : c'.epoch.toNat = c.epoch.toNat + 1 := by
      rw [shardEpoch]
      exact saturatingSucc_toNat (by omega)
    have le := cached.epoch_le
    have iff := cached.epoch_iff
    have own : h'.epoch.toNat ≤ c'.epoch.toNat ∧ (h'.epoch.toNat = c'.epoch.toNat ↔ asks h'.signals = false) := by
      cases manual with
      | true =>
        have moved : h'.epoch.toNat = h.epoch.toNat + 1 := by
          rw [epoch, if_pos rfl]
          exact saturatingSucc_toNat (by omega)
        rw [alone rfl] at raise
        rw [moved, next, show asks h'.signals = asks h.signals from raise, ← iff]
        omega
      | false =>
        rw [if_neg Bool.false_ne_true] at epoch
        rw [Bool.false_or] at grows
        rw [epoch, next, raise, grows, Bool.true_or]
        exact ⟨Nat.le_succ_of_le le, fun same => by omega, fun impossible => by cases impossible⟩
    refine ⟨step.framed.shardCount.trans cached.shards, by omega, ?_, ?_, own.1, own.2⟩
    · rw [capacity, next, cached.capacity, Nat.pow_succ, Nat.mul_assoc]
    · rw [size, level, cached.sizeInBytes]
      ring

theorem Coordinated.sizes (coordinated : Coordinated c h) (blockSize : Nat) :
    (h.router.shards.map ObliviousHistogram.capacity).sum = h.router.shardCount * (2 ^ c.height * Z) ∧
    (h.router.shards.map (ObliviousHistogram.sizeInBytes blockSize)).sum =
      h.router.shardCount * (2 ^ (c.height + 1) * Z * blockSize) := by
  have height : ∀ tree ∈ h.router.shards, tree.height = c.height := fun tree htree =>
    congrArg Counters.height (coordinated.all tree htree).2.1
  have capacity : h.router.shards.map ObliviousHistogram.capacity =
      List.replicate h.router.shards.length (2 ^ c.height * Z) :=
    List.map_eq_replicate_iff.mpr fun tree htree => by rw [ObliviousHistogram.capacity, height tree htree]
  have size : h.router.shards.map (ObliviousHistogram.sizeInBytes blockSize) =
      List.replicate h.router.shards.length (2 ^ (c.height + 1) * Z * blockSize) :=
    List.map_eq_replicate_iff.mpr fun tree htree => by
      rw [ObliviousHistogram.sizeInBytes, (coordinated.all tree htree).1.shape.memory, height tree htree]
  rw [capacity, size, List.sum_replicate, List.sum_replicate, coordinated.formed.shards]
  exact ⟨rfl, rfl⟩

/-- The capacities that a tree does not round. -/
theorem treeHeightForCapacity_exact {total count base : Nat} (some : count ≠ 0)
    (height : treeHeightForCapacity (total / count) Z = .ok base) :
    total = count * (2 ^ base * Z) ↔ ∃ j, 1 ≤ j ∧ total = count * (2 ^ j * Z) := by
  refine ⟨fun exact => ⟨base, (treeHeightForCapacity_spec height).2.1, exact⟩, ?_⟩
  rintro ⟨j, pos, rfl⟩
  rw [Nat.mul_div_cancel_left _ (Nat.pos_of_ne_zero some), treeHeightForCapacity] at height
  split at height
  · cases height
  rename_i power
  split at height
  · cases height
  simp only at height
  split at height
  · have log : Nat.log2 (2 ^ j * Z) = j + Nat.log2 Z := by
      rw [Classical.not_not.mp power, ← Nat.pow_add, Nat.log2_two_pow, Nat.log2_two_pow]
    rw [log, Nat.add_sub_cancel, Nat.max_eq_left pos] at height
    rw [Except.ok.inj height]
  · cases height

variable [Add V] [Inhabited V]

/-- A growth that the coordinator asks for leaves the cached epoch behind, and the requested capacity
is that of the trees when they do not round it. -/
theorem caches_exact_iff {batchSize quota frontends : Nat} {prfs : List Aes128} {prf : Aes128}
    {slack : Nat → Nat → Nat → Nat} {ops : List (ShardedOp V)} {outs : List (Option V)}
    (start : newWithFrontends blockSize prfs total batchSize quota frontends prf = .ok h)
    (hrun : h.run math slack ops = .ok (outs, h')) : CachesExact blockSize h' ↔
      (∃ j, 1 ≤ j ∧ total = prfs.length * (2 ^ j * Z)) ∧ asks h'.signals = false := by
  obtain ⟨base, height, coordinated, count, epoch, capacity, size, quiet, -⟩ := newWithFrontends_coordinated start
  have some : prfs.length ≠ 0 := by
    obtain ⟨first, rest, shards, -⟩ := coordinated.shards
    rw [← count, shards]
    exact Nat.succ_ne_zero _
  have before : Cached blockSize total prfs.length base ⟨base, 0, 0, 0, 0⟩ h := by
    have asked : asks h.signals = false := by
      rw [signals]
      cases shards : h.router.shards with
      | nil => rfl
      | cons first rest =>
        have none : first.trace = [] := quiet first (by rw [shards]; exact .head _)
        rw [List.head?_cons, Option.map_some, Option.getD_some, none]
        rfl
    refine ⟨coordinated.formed.shards.trans count, rfl, capacity.trans (Nat.mul_one total).symm, ?_, ?_, ?_⟩
    · rw [size, (coordinated.sizes blockSize).2, coordinated.formed.shards, count]
    · rw [epoch]
    · rw [epoch, asked]
      exact ⟨fun _ => rfl, fun _ => rfl⟩
  obtain ⟨c, after, cached⟩ := run_induct (fun _ _ _ _ _ step cached => cached.step step) coordinated before hrun
  obtain ⟨capacities, sizes⟩ := after.sizes blockSize
  have capacityIff : h'.totalCapacity = (h'.router.shards.map ObliviousHistogram.capacity).sum ↔
      ∃ j, 1 ≤ j ∧ total = prfs.length * (2 ^ j * Z) := by
    rw [totalCapacity, cached.capacity, capacities, cached.shards, cached.height, ← treeHeightForCapacity_exact some height,
      Nat.pow_add, Nat.mul_right_comm (2 ^ base), ← Nat.mul_assoc]
    exact Nat.mul_left_inj (Nat.two_pow_pos _).ne'
  have epochIff : (∀ tree ∈ h'.router.shards, tree.epoch = h'.epoch) ↔ asks h'.signals = false := by
    have same : ∀ tree ∈ h'.router.shards, tree.epoch = c.epoch := fun tree htree =>
      congrArg Counters.epoch (after.all tree htree).2.1
    rw [← cached.epoch_iff, UInt8.toNat_inj]
    constructor
    · intro all
      obtain ⟨first, rest, shards, -⟩ := after.shards
      have member : first ∈ h'.router.shards := by
        rw [shards]
        exact .head _
      exact (all first member).symm.trans (same first member)
    · intro equal tree htree
      exact (same tree htree).trans equal.symm
  constructor
  · rintro ⟨epochs, capacities, -⟩
    exact ⟨capacityIff.mp capacities, epochIff.mp epochs⟩
  · rintro ⟨exact, quiet⟩
    refine ⟨epochIff.mpr quiet, capacityIff.mpr exact, ?_⟩
    rw [cached.sizeInBytes, sizes, cached.shards]

end ShardedObliviousHistogram

/-- A growth by hand moves the cached epoch with the shards. -/
theorem caches_exact_grow : ∃ (outs : List (Option Nat)) (h' : ShardedObliviousHistogram 1 1 1 4 Nat),
    runNew .constant (fun _ _ _ => 0) 1 [id, id] 4 1 2 1 id [.append [1] 5, .grow] = .ok (outs, h') ∧ CachesExact 1 h' := by
  have run : ((runNew .constant (fun _ _ _ => 0) 1 [id, id] 4 1 2 1 id [.append [1] 5, .grow] :
    Except Panic (List (Option Nat) × ShardedObliviousHistogram 1 1 1 4 Nat)).toOption.map fun r => r.2.signals) =
      some [] := by decide +kernel
  obtain ⟨⟨outs, h'⟩, ran, shown⟩ := Option.map_eq_some_iff.mp run
  have ran := eq_ok_of_toOption ran
  obtain ⟨h, start, hrun⟩ := bind_ok ran
  have quiet : asks h'.signals = false := congrArg asks shown
  exact ⟨outs, h', ran, (caches_exact_iff start hrun).mpr ⟨⟨1, le_rfl, rfl⟩, quiet⟩⟩

/-- Three blocks on two shards, and one growth that the coordinator asks for: the shards hold
eight blocks at epoch 1. -/
theorem caches_stale : ∃ (outs : List (Option Nat)) (h' : ShardedObliviousHistogram 1 1 1 4 Nat),
    runNew .constant (fun _ _ _ => 0) 1 [id, id] 3 1 2 1 id [.enableAutoResize ⟨1, 1, 0.01, 0⟩, .append [1] 5] =
        .ok (outs, h') ∧
      h'.epoch = 0 ∧ h'.router.shards.map (·.epoch) = [1, 1] ∧ h'.totalCapacity = 6 ∧
      h'.router.shards.map ObliviousHistogram.capacity = [4, 4] ∧ ¬ CachesExact 1 h' := by
  have run : ((runNew .constant (fun _ _ _ => 0) 1 [id, id] 3 1 2 1 id [.enableAutoResize ⟨1, 1, 0.01, 0⟩, .append [1] 5] :
    Except Panic (List (Option Nat) × ShardedObliviousHistogram 1 1 1 4 Nat)).toOption.map fun r => (r.2.epoch,
      r.2.router.shards.map (·.epoch), r.2.totalCapacity, r.2.router.shards.map ObliviousHistogram.capacity)) =
      some (0, [1, 1], 6, [4, 4]) := by decide +kernel
  obtain ⟨⟨outs, h'⟩, ran, shown⟩ := Option.map_eq_some_iff.mp run
  simp only [Prod.mk.injEq] at shown
  obtain ⟨epoch, epochs, capacity, capacities⟩ := shown
  refine ⟨outs, h', eq_ok_of_toOption ran, epoch, epochs, capacity, capacities, fun exact => ?_⟩
  have wrong := exact.capacity
  rw [capacity, capacities] at wrong
  exact absurd wrong (by decide)

end Roga
