import Roga.Sharded.Obliviousness
import Roga.Sharded.Overflow
import Roga.Sharded.Totals

/-! Runs of the sharded histogram that end in a batch overflow: only the routing phase of a flush
raises this panic, and what it routes depends on the operations alone. -/
namespace Roga
open Ct ObliviousHistogram
variable {Z K A S : Nat} {V : Type} {math : ResizeMath}

/-- The panic of a frontend that finds too many blocks for a shard. -/
def Panic.BatchOverflow (e : Panic) : Prop := ∃ maxLoad subQuota, e = .shardBatchOverflow maxLoad subQuota

/-- A computation that raises it only for this cause. -/
def OverflowsOnlyIf (cause : Prop) {α : Type} (x : Except Panic α) : Prop := ∀ e, x = .error e → e.BatchOverflow → cause

section Causes
variable {cause : Prop} {α β : Type} {x : Except Panic α} {f : α → Except Panic β} {p : Prop} [Decidable p]

theorem OverflowsOnlyIf.ok (a : α) : OverflowsOnlyIf cause (.ok a) := fun _ h => nomatch h

theorem OverflowsOnlyIf.error {e : Panic} (other : ¬ e.BatchOverflow) :
    OverflowsOnlyIf cause (.error e : Except Panic α) := by
  intro e' h overflow
  obtain rfl := Except.error.inj h
  exact absurd overflow other

theorem OverflowsOnlyIf.assertion (message : String) : OverflowsOnlyIf cause (.error (.assertion message) : Except Panic α) := by
  refine .error ?_
  rintro ⟨maxLoad, subQuota, same⟩
  cases same

theorem OverflowsOnlyIf.mono {cause' : Prop} (only : OverflowsOnlyIf cause x) (weaker : cause → cause') :
    OverflowsOnlyIf cause' x := fun e h overflow => weaker (only e h overflow)

theorem OverflowsOnlyIf.bind (first : OverflowsOnlyIf cause x) (next : ∀ a, x = .ok a → OverflowsOnlyIf cause (f a)) :
    OverflowsOnlyIf cause (x >>= f) := by
  cases x with
  | error e => exact fun e' h => first e' (congrArg Except.error (Except.error.inj h))
  | ok a => exact next a rfl

theorem OverflowsOnlyIf.ite {y : Except Panic α} (pos : p → OverflowsOnlyIf cause x) (neg : ¬ p → OverflowsOnlyIf cause y) :
    OverflowsOnlyIf cause (if p then x else y) := by
  split
  · exact pos ‹_›
  · exact neg ‹_›

theorem OverflowsOnlyIf.foldlM {step : α → β → Except Panic α} (each : ∀ a b, OverflowsOnlyIf cause (step a b)) (a : α)
    (bs : List β) : OverflowsOnlyIf cause (bs.foldlM step a) := by
  induction bs generalizing a with
  | nil => exact .ok a
  | cons b bs ih => exact (each a b).bind fun a' _ => ih a'

end Causes

section Tree
variable [Inhabited V] {cause : Prop} {h : ObliviousHistogram Z K A S V}

theorem writePath_overflows (leaf : TreeIndex) : OverflowsOnlyIf cause (h.writePath leaf) := by
  refine OverflowsOnlyIf.bind ?_ fun _ _ => .ok _
  exact .ite (fun _ => .error nofun) fun _ => .ok _

omit [Inhabited V] in
theorem onTreeGrown_overflows : OverflowsOnlyIf cause (h.onTreeGrown math) := by
  rw [onTreeGrown]
  split
  · rw [AutoResizeState.onTreeGrown_eq]
    exact .bind (.ite (fun _ => .ok _) fun _ => .assertion _) fun _ _ => .ok _
  · exact .ok _

theorem applyAutoResizeGrow_overflows (target : Nat) : OverflowsOnlyIf cause (h.applyAutoResizeGrow math target) :=
  .bind (.ite (fun _ => .ok _) fun _ => .error nofun) fun _ _ => .bind onTreeGrown_overflows fun _ _ => .ok _

theorem applyDeferredAutoResizeGrow_overflows (target : Nat) :
    OverflowsOnlyIf cause (h.applyDeferredAutoResizeGrow math target) :=
  .ite (fun _ => applyAutoResizeGrow_overflows target) fun _ => .assertion _

omit [Inhabited V] in
theorem takeDeferredAutoResizeSignal_overflows : OverflowsOnlyIf cause h.takeDeferredAutoResizeSignal := by
  rw [takeDeferredAutoResizeSignal]
  split
  · exact .ite (fun _ => .ok _) fun _ => .assertion _
  · exact .assertion _

theorem checkAndMaybeResizePostEviction_overflows : OverflowsOnlyIf cause (h.checkAndMaybeResizePostEviction math) := by
  rw [checkAndMaybeResizePostEviction]
  split
  · exact .ok _
  · refine .ite (fun _ => .ok _) fun _ => .ite (fun _ => .ok _) fun _ => ?_
    rw [checkAndMaybeResize]
    split
    split
    · exact applyAutoResizeGrow_overflows _
    · exact .ok _

variable [Add V]

theorem evictAfterInsert_overflows : OverflowsOnlyIf cause (h.evictAfterInsert math) :=
  .bind (writePath_overflows _) fun _ _ => checkAndMaybeResizePostEviction_overflows

theorem appendPreparedMaskedBatch_overflows (updates : List (PreparedUpdate K V)) :
    OverflowsOnlyIf cause (h.appendPreparedMaskedBatch math updates) := by
  fun_induction appendPreparedMaskedBatch math h updates with
  | case1 => exact .ok _
  | case2 => exact .error nofun
  | case3 h updates some evictPeriod period chunkLen shrinks epoch ih =>
    have stored : ∀ stash : ObliviousStash Z K S V, ∀ batch, OverflowsOnlyIf cause (stash.insertBatch batch) := fun _ _ =>
      .ite (fun _ => .error nofun) fun _ => .ok _
    refine (stored _ _).bind fun stash _ => ?_
    exact .ite (fun _ => evictAfterInsert_overflows.bind fun g _ => ih g) fun _ => (OverflowsOnlyIf.ok _).bind fun g _ => ih g

theorem readPreparedTotal_overflows (tag : UInt64) (payload : Vector UInt8 K) :
    OverflowsOnlyIf cause (h.readPreparedTotal tag payload) :=
  .bind (writePath_overflows _) fun _ _ => .ok _

theorem readDummy_overflows (draw : Nat) : OverflowsOnlyIf cause (h.readDummy draw) :=
  .bind (writePath_overflows _) fun _ _ => .ok _

theorem grow_overflows : OverflowsOnlyIf cause (h.grow math) :=
  .bind (.ite (fun _ => .ok _) fun _ => .error nofun) fun _ _ =>
    .bind onTreeGrown_overflows fun _ _ => .foldlM (fun _ _ => writePath_overflows _) _ _

end Tree

section Shards
variable {cause : Prop} {Shard : Type}

theorem forEachShard_overflows {f : Shard → Except Panic Shard} (each : ∀ shard, OverflowsOnlyIf cause (f shard))
    (shards : List Shard) : OverflowsOnlyIf cause (forEachShard f shards) := by
  induction shards with
  | nil => exact .ok _
  | cons shard shards ih => exact (each shard).bind fun _ _ => ih.bind fun _ _ => .ok _

variable {processBatchChunk : Shard → List (OramBlock K V) → Except Panic Unit × Shard}

theorem processShard_overflows (each : ∀ shard chunk, OverflowsOnlyIf cause (processBatchChunk shard chunk).1) (shard : Shard)
    (chunks : List (List (OramBlock K V))) :
    OverflowsOnlyIf cause (ShardedBatchRouter.processShard processBatchChunk shard chunks).1 := by
  induction chunks generalizing shard with
  | nil => exact .ok _
  | cons chunk chunks ih =>
    rw [ShardedBatchRouter.processShard]
    split
    · exact ih _
    · rename_i e shard' failed
      have first := each shard chunk
      rwa [failed] at first

theorem processShards_overflows (each : ∀ shard chunk, OverflowsOnlyIf cause (processBatchChunk shard chunk).1)
    (frontends : List (RouterFrontend K V)) (subQuota s : Nat) (shards : List Shard) :
    OverflowsOnlyIf cause (ShardedBatchRouter.processShards processBatchChunk frontends subQuota s shards).1 := by
  induction shards generalizing s with
  | nil => exact .ok _
  | cons shard shards ih =>
    rw [ShardedBatchRouter.processShards]
    split
    · exact ih (s + 1)
    · rename_i e shard' failed
      have first := processShard_overflows each shard (ShardedBatchRouter.shardChunks frontends subQuota s)
      rwa [failed] at first

end Shards

namespace ShardedObliviousHistogram
variable [Add V] [Inhabited V] {cause : Prop} {h h' : ShardedObliviousHistogram Z K A S V}

theorem processBatchChunk_overflows (shard : ObliviousHistogram Z K A S V) (chunk : List (OramBlock K V)) :
    OverflowsOnlyIf cause (processBatchChunk math shard chunk).1 := by
  rw [processBatchChunk]
  split
  · exact .ok _
  · rename_i e failed
    have append := @appendPreparedMaskedBatch_overflows Z K A S V math _ cause shard _
      (chunk.map fun b => (b.tag, b.value, b.payload, ctIsReal b.tag))
    rw [failed] at append
    exact fun e' h => append e' (congrArg Except.error (Except.error.inj h))

theorem readShards_overflows (target : Nat) (key : UInt64) (payload : Vector UInt8 K) (draws : Nat → Nat) (s : Nat)
    (trees : List (ObliviousHistogram Z K A S V)) (result : V) :
    OverflowsOnlyIf cause (readShards target key payload draws s trees result) := by
  induction trees generalizing s result with
  | nil => exact .ok _
  | cons tree trees ih =>
    refine .ite (fun _ => ?_) fun _ => ?_
    · exact (readPreparedTotal_overflows _ _).bind fun _ _ => (ih _ _).bind fun _ _ => .ok _
    · exact (readDummy_overflows _).bind fun _ _ => (ih _ _).bind fun _ _ => .ok _

omit [Add V] in
theorem handleDeferredResize_overflows : OverflowsOnlyIf cause (h.handleDeferredResize math) := by
  rw [handleDeferredResize]
  refine .ite (fun _ => .ok _) fun _ => ?_
  split
  · exact .ok _
  · refine takeDeferredAutoResizeSignal_overflows.bind ?_
    rintro ⟨_ | target, tree⟩ -
    · exact .ok _
    · exact (forEachShard_overflows (fun _ => applyDeferredAutoResizeGrow_overflows _) _).bind fun _ _ => .ok _

/-- The router has something to route, and cannot. -/
def RoutingFails (h : ShardedObliviousHistogram Z K A S V) : Prop :=
  h.router.pending ≠ [] ∧ ∃ e, h.router.routeBatch h.router.padded = .error e

theorem flush_overflows : OverflowsOnlyIf h.RoutingFails (h.flush math) := by
  refine OverflowsOnlyIf.bind ?_ fun _ _ => handleDeferredResize_overflows
  rw [flushRouter]
  by_cases some : h.router.pending = []
  · rw [ShardedBatchRouter.flush, if_pos some]
    exact .ok _
  cases route : h.router.routeBatch h.router.padded with
  | error e => exact fun _ _ _ => ⟨some, e, route⟩
  | ok frontends =>
    rw [ShardedBatchRouter.flush_of_route_ok some route]
    have shards := @processShards_overflows K V h.RoutingFails _ (processBatchChunk math) processBatchChunk_overflows frontends
      (h.router.perShardQuota / h.router.frontends.length) 0 h.router.shards
    rcases outcome : ShardedBatchRouter.processShards (processBatchChunk math) frontends
      (h.router.perShardQuota / h.router.frontends.length) 0 h.router.shards with ⟨_ | _, trees⟩
    · rw [outcome] at shards
      exact fun e' h => shards e' (congrArg Except.error (Except.error.inj h))
    · exact .ok _

omit [Add V] [Inhabited V] in
/-- The sampler's own panics are not this one. -/
theorem enableAutoResize_overflows (source : ∀ eps e, math.newSampler eps = .error e → ¬ e.BatchOverflow)
    (slack : Nat → Nat → Nat → Nat) (cfg : AutoResizeConfig) :
    OverflowsOnlyIf cause (h.enableAutoResize math slack cfg) := by
  refine OverflowsOnlyIf.bind ?_ fun _ _ => .ok _
  generalize 0 = i
  induction h.router.shards generalizing i with
  | nil => exact .ok _
  | cons tree trees ih =>
    refine OverflowsOnlyIf.bind ?_ fun _ _ => (ih _).bind fun _ _ => .ok _
    refine OverflowsOnlyIf.bind (fun e failed overflow => absurd overflow (source _ e failed)) fun sampler _ => ?_
    refine OverflowsOnlyIf.bind ?_ fun _ _ => .ok _
    rw [dpEpochUnits_eq]
    exact .ite (fun _ => .ok _) fun _ => .assertion _

omit [Add V] in
theorem newTrees_overflows (capacity : Nat) (prfs : List Aes128) :
    OverflowsOnlyIf cause (newTrees capacity prfs : Except Panic (List (ObliviousHistogram Z K A S V))) := by
  induction prfs with
  | nil => exact .ok _
  | cons prf prfs ih =>
    refine OverflowsOnlyIf.bind (OverflowsOnlyIf.bind ?_ fun _ _ => .ok _) fun _ _ => ih.bind fun _ _ => .ok _
    exact .ite (fun _ => .error nofun) fun _ => .ite (fun _ => .error nofun) fun _ => .ite (fun _ => .ok _) fun _ =>
      .error nofun

omit [Add V] in
theorem newWithFrontends_overflows (blockSize : Nat) (prfs : List Aes128) (total batchSize quota frontends : Nat) (prf : Aes128) :
    OverflowsOnlyIf cause (newWithFrontends blockSize prfs total batchSize quota frontends prf :
      Except Panic (ShardedObliviousHistogram Z K A S V)) :=
  .ite (fun _ => .error nofun) fun _ => (newTrees_overflows _ prfs).bind fun _ _ => .ok _

end ShardedObliviousHistogram

namespace ShardedOp
variable (capacity : Nat) (pending : List (Vector UInt8 K))

/-- The payloads that an operation routes, if it does. -/
def routed : ShardedOp V → Option (List (Vector UInt8 K))
  | .append key _ =>
    let pending := pending ++ [copyPrefix K key]
    if capacity ≤ pending.length then some pending else none
  | .flush | .readTotal _ _ => if pending = [] then none else some pending
  | .grow | .enableAutoResize _ => none

/-- The payloads that are pending afterwards. -/
def pendingAfter : ShardedOp V → List (Vector UInt8 K)
  | .append key _ =>
    let pending := pending ++ [copyPrefix K key]
    if capacity ≤ pending.length then pending.drop capacity else pending
  | .flush | .readTotal _ _ => pending.drop capacity
  | .grow | .enableAutoResize _ => pending

/-- The batches that a run routes: they depend on no tag. -/
def routedBatches (capacity : Nat) : List (Vector UInt8 K) → List (ShardedOp V) → List (List (Vector UInt8 K))
  | _, [] => []
  | pending, op :: ops =>
    (op.routed capacity pending).toList ++ routedBatches capacity (op.pendingAfter capacity pending) ops

end ShardedOp

namespace ShardedObliviousHistogram
variable [Add V] [Inhabited V] {d : Nat} {payload : Fin d → Vector UInt8 K} {tags : Fin d → UInt64}
  {batch : List (Vector UInt8 K)} {h₀ h h' : ShardedObliviousHistogram Z K A S V}

/-- A state with these payloads pending, of keys with these tags. -/
structure Awaiting (payload : Fin d → Vector UInt8 K) (tags : Fin d → UInt64) (h₀ : ShardedObliviousHistogram Z K A S V)
    (batch : List (Vector UInt8 K)) (h : ShardedObliviousHistogram Z K A S V) : Prop where
  coordinated : ∃ c, Coordinated c h
  framed : Framed h₀ h
  keyed : Keyed payload tags h.router.pending
  pending : h.router.pending.map OramBlock.payload = batch

theorem Awaiting.flush (awaiting : Awaiting payload tags h₀ batch h) (run : h.flush math = .ok h') :
    Awaiting payload tags h₀ (batch.drop h₀.router.batchCapacity) h' := by
  obtain ⟨c, coordinated⟩ := awaiting.coordinated
  obtain ⟨c', step⟩ := flush_stepped coordinated run
  have rest := flush_pending run
  rw [awaiting.framed.batchCapacity] at rest
  refine ⟨⟨c', step.coordinated⟩, awaiting.framed.trans step.framed, ?_, ?_⟩
  · rw [rest]
    exact fun b hb => awaiting.keyed b (List.mem_of_mem_drop hb)
  · rw [rest, List.map_drop, awaiting.pending]

/-- The state of an append before its flush. -/
def pushed (h : ShardedObliviousHistogram Z K A S V) (key : List UInt8) (val : V) : ShardedObliviousHistogram Z K A S V :=
  { h with router := { h.router with
    pending := h.router.pending ++ [OramBlock.real (prfTag h.router.prf key) h.epoch val (copyPrefix K key)] } }

omit [Add V] [Inhabited V] in
theorem Awaiting.push (awaiting : Awaiting payload tags h₀ batch h) {key : List UInt8} (val : V)
    (known : ∃ i, prfTag h₀.router.prf key = tags i ∧ copyPrefix K key = payload i) :
    Awaiting payload tags h₀ (batch ++ [copyPrefix K key]) (h.pushed key val) := by
  obtain ⟨c, coordinated⟩ := awaiting.coordinated
  have framed := awaiting.framed
  refine ⟨⟨c, coordinated.pending _⟩, ⟨framed.prf, framed.shardCount, framed.batchCapacity, framed.perShardQuota,
    framed.frontendCount⟩, ?_, ?_⟩
  · intro b hb real
    rcases List.mem_append.mp hb with hb | hb
    · exact awaiting.keyed b hb real
    · obtain rfl := List.mem_singleton.mp hb
      rw [framed.prf]
      exact known
  · rw [pushed, List.map_append, awaiting.pending]
    rfl

theorem Awaiting.append_eq (awaiting : Awaiting payload tags h₀ batch h) (key : List UInt8) (val : V) :
    h.append math key val = if h₀.router.batchCapacity ≤ (batch ++ [copyPrefix K key]).length then
      (h.pushed key val).flush math else .ok (h.pushed key val) := by
  have size : (h.pushed key val).router.pending.length = (batch ++ [copyPrefix K key]).length := by
    rw [pushed, List.length_append, List.length_append, ← awaiting.pending, List.length_map]
    rfl
  rw [← size, ← awaiting.framed.batchCapacity]
  rfl

/-- The next state awaits what the schedule says. -/
theorem Awaiting.step {slack : Nat → Nat → Nat → Nat} {op : ShardedOp V} {out : Option V}
    (awaiting : Awaiting payload tags h₀ batch h)
    (over' : op.Over fun key => ∃ i, prfTag h₀.router.prf key = tags i ∧ copyPrefix K key = payload i)
    (run : h.step math slack op = .ok (out, h')) :
    Awaiting payload tags h₀ (op.pendingAfter h₀.router.batchCapacity batch) h' := by
  obtain ⟨c, coordinated⟩ := awaiting.coordinated
  obtain ⟨c', stepped⟩ := step_stepped coordinated run
  have next : ∀ rest, Keyed payload tags h'.router.pending → h'.router.pending.map OramBlock.payload = rest →
      Awaiting payload tags h₀ rest h' := fun rest keyed pending =>
    ⟨⟨c', stepped.coordinated⟩, awaiting.framed.trans stepped.framed, keyed, pending⟩
  cases op with
  | append key val =>
    obtain ⟨g, appended, same⟩ := map_ok run
    obtain ⟨-, rfl⟩ := Prod.mk.inj same
    have pushed := awaiting.push val over'
    rw [awaiting.append_eq] at appended
    rw [ShardedOp.pendingAfter]
    split at appended
    · rename_i full
      rw [if_pos full]
      exact pushed.flush appended
    · rename_i below
      rw [if_neg below]
      obtain rfl := Except.ok.inj appended
      exact next _ pushed.keyed pushed.pending
  | flush =>
    obtain ⟨g, flushed, same⟩ := map_ok run
    obtain ⟨-, rfl⟩ := Prod.mk.inj same
    exact awaiting.flush flushed
  | readTotal key draws =>
    obtain ⟨⟨v, g⟩, read, run⟩ := bind_ok run
    obtain ⟨g', flushed, read⟩ := bind_ok read
    obtain ⟨⟨result, shards⟩, -, read⟩ := bind_ok read
    simp only [pure, Except.pure, Except.ok.injEq, Prod.mk.injEq] at read run
    obtain ⟨rfl, rfl⟩ := read
    obtain ⟨-, rfl⟩ := run
    have after := awaiting.flush flushed
    exact next _ after.keyed after.pending
  | grow =>
    obtain ⟨g, grown, same⟩ := map_ok run
    obtain ⟨-, rfl⟩ := Prod.mk.inj same
    obtain ⟨shards, -, rfl⟩ := map_ok grown
    exact next _ awaiting.keyed awaiting.pending
  | enableAutoResize cfg =>
    obtain ⟨g, enabled, same⟩ := map_ok run
    obtain ⟨-, rfl⟩ := Prod.mk.inj same
    obtain ⟨shards, -, rfl⟩ := map_ok enabled
    exact next _ awaiting.keyed awaiting.pending

section Causes
variable {m f q : Nat}

/-- A routing phase that fails is one of a crowded batch. -/
theorem Awaiting.crowded (awaiting : Awaiting payload tags h₀ batch h) (injective : Function.Injective payload)
    (apart : TagsApart tags) (some : h₀.router.shardCount ≠ 0) (frontends : h₀.router.frontendCount = f)
    (quota : h₀.router.perShardQuota = f * q) (full : h₀.router.batchCapacity / f ≠ 0) (fails : h.RoutingFails) :
    batch ≠ [] ∧ Crowded payload h₀.router.shardCount f q h₀.router.batchCapacity batch tags := by
  obtain ⟨pending, e, route⟩ := fails
  obtain ⟨c, coordinated⟩ := awaiting.coordinated
  have framed := awaiting.framed
  refine ⟨fun none => pending (List.map_eq_nil_iff.mp (awaiting.pending.trans none)), ?_⟩
  have crowded := crowded_of_routeBatch_error injective apart awaiting.keyed coordinated.formed (framed.shardCount ▸ some)
    (framed.frontendCount.trans frontends) (framed.perShardQuota.trans quota) (framed.batchCapacity ▸ full) route
  rwa [framed.shardCount, framed.batchCapacity, awaiting.pending] at crowded

/-- An operation overflows only when the batch it routes is crowded. -/
theorem Awaiting.step_overflows {slack : Nat → Nat → Nat → Nat} {op : ShardedOp V}
    (source : ∀ eps e, math.newSampler eps = .error e → ¬ e.BatchOverflow) (awaiting : Awaiting payload tags h₀ batch h)
    (over' : op.Over fun key => ∃ i, prfTag h₀.router.prf key = tags i ∧ copyPrefix K key = payload i)
    {cause : List (Vector UInt8 K) → Prop}
    (causes : ∀ batch g, Awaiting payload tags h₀ batch g → g.RoutingFails → batch ≠ [] ∧ cause batch) :
    OverflowsOnlyIf (∃ batch' ∈ op.routed h₀.router.batchCapacity batch, cause batch') (h.step math slack op) := by
  have flush : OverflowsOnlyIf (∃ batch' ∈ (if batch = [] then none else some batch), cause batch') (h.flush math) := by
    refine flush_overflows.mono fun fails => ?_
    obtain ⟨nonempty, crowded⟩ := causes batch h awaiting fails
    exact ⟨batch, by rw [if_neg nonempty]; rfl, crowded⟩
  cases op with
  | append key val =>
    refine OverflowsOnlyIf.bind ?_ fun _ _ => .ok _
    rw [awaiting.append_eq]
    refine .ite (fun full => flush_overflows.mono fun fails => ?_) fun _ => .ok _
    exact ⟨_, if_pos full, (causes _ _ (awaiting.push val over') fails).2⟩
  | flush => exact flush.bind fun _ _ => .ok _
  | readTotal key draws =>
    exact (flush.bind fun _ _ => (readShards_overflows _ _ _ _ _ _ _).bind fun _ _ => .ok _).bind fun _ _ => .ok _
  | grow => exact ((forEachShard_overflows (fun _ => grow_overflows) _).bind fun _ _ => .ok _).bind fun _ _ => .ok _
  | enableAutoResize cfg => exact (enableAutoResize_overflows source slack cfg).bind fun _ _ => .ok _

/-- A run overflows only when one of the batches it routes is crowded. -/
theorem Awaiting.run_overflows (slack : Nat → Nat → Nat → Nat) {ops : List (ShardedOp V)}
    (source : ∀ eps e, math.newSampler eps = .error e → ¬ e.BatchOverflow) (awaiting : Awaiting payload tags h₀ batch h)
    (over' : ∀ op ∈ ops, op.Over fun key => ∃ i, prfTag h₀.router.prf key = tags i ∧ copyPrefix K key = payload i)
    {cause : List (Vector UInt8 K) → Prop}
    (causes : ∀ batch g, Awaiting payload tags h₀ batch g → g.RoutingFails → batch ≠ [] ∧ cause batch) :
    OverflowsOnlyIf (∃ batch' ∈ ShardedOp.routedBatches h₀.router.batchCapacity batch ops, cause batch')
      (h.run math slack ops) := by
  induction ops generalizing h batch with
  | nil => exact .ok _
  | cons op ops ih =>
    refine OverflowsOnlyIf.bind ?_ ?_
    · refine (awaiting.step_overflows source (over' op (.head _)) causes).mono ?_
      rintro ⟨batch', routed, crowded⟩
      exact ⟨batch', List.mem_append_left _ (Option.mem_toList.mpr routed), crowded⟩
    · rintro ⟨out, g⟩ first
      have rest := ih (awaiting.step (over' op (.head _)) first) fun op hop => over' op (.tail _ hop)
      refine (rest.mono ?_).bind fun _ _ => .ok _
      rintro ⟨batch', routed, crowded⟩
      exact ⟨batch', List.mem_append_right _ routed, crowded⟩

end Causes
end ShardedObliviousHistogram

/-- The union bound over a list. -/
theorem prob_exists_mem_le {Ω T : Type} [Fintype Ω] {bound : ℝ} (events : T → Ω → Prop) (xs : List T)
    (each : ∀ x ∈ xs, Tape.prob (events x) ≤ bound) :
    Tape.prob (fun ω => ∃ x ∈ xs, events x ω) ≤ xs.length * bound := by
  refine (Tape.prob_mono fun ω h => ?_).trans
    (Tape.prob_exists_le (fun i ω => ∃ x ∈ xs[i]?, events x ω) xs.length fun i hi => ?_)
  · obtain ⟨x, hx, event⟩ := h
    obtain ⟨i, hi, rfl⟩ := List.mem_iff_getElem.mp hx
    exact ⟨i, hi, xs[i], List.getElem?_eq_getElem hi, event⟩
  · rw [List.getElem?_eq_getElem hi]
    refine (Tape.prob_mono fun ω h => ?_).trans (each xs[i] (List.getElem_mem hi))
    obtain ⟨x, hx, event⟩ := h
    obtain rfl := Option.some.inj hx
    exact event

/-- Every tag is the first half of a block. -/
theorem exists_block (tag : UInt64) : ∃ block : Vector UInt8 16, fromLeBytes (block.toList.take 8) = tag := by
  have injective : Function.Injective fun bytes : Fin 8 → UInt8 => fromLeBytes (List.ofFn bytes) := by
    intro a b same
    exact List.ofFn_injective (fromLeBytes_inj (by simp) (by simp) same)
  have sizes : Fintype.card (Fin 8 → UInt8) = Fintype.card UInt64 := by
    have byte : Fintype.card UInt8 = 2 ^ 8 := FinEnum.card_eq_fintypeCard.symm.trans FinEnum.card_UInt8
    have word : Fintype.card UInt64 = 2 ^ 64 := FinEnum.card_eq_fintypeCard.symm.trans FinEnum.card_UInt64
    rw [Fintype.card_fun, Fintype.card_fin, byte, word, ← pow_mul]
  obtain ⟨bytes, same⟩ := ((Fintype.bijective_iff_injective_and_card _).mpr ⟨injective, sizes⟩).2 tag
  refine ⟨⟨(List.ofFn bytes ++ List.replicate 8 0).toArray, by simp⟩, ?_⟩
  rw [← same]
  simp

/-- A cipher that gives the keys of one byte these tags. -/
noncomputable def byteTags (tags : Fin 256 → UInt64) : Aes128 := fun block =>
  (exists_block (tags (Fin.ofNat 256 block[0].toNat))).choose

theorem byteTags_of_head {tags : Fin 256 → UInt64} {block : Vector UInt8 16} {i : Fin 256} (head : block[0].toNat = i.1) :
    fromLeBytes ((byteTags tags block).toList.take 8) = tags i := by
  have index : Fin.ofNat 256 block[0].toNat = i := Fin.ext (by rw [head, Fin.val_ofNat, Nat.mod_eq_of_lt i.2])
  exact (exists_block (tags (Fin.ofNat 256 block[0].toNat))).choose_spec.trans (congrArg tags index)

theorem prfTag_byteTags (tags : Fin 256 → UInt64) (i : Fin 256) : prfTag (byteTags tags) [.ofNat i.1] = tags i := by
  have single : ∀ b : UInt8, prfTag (byteTags tags) [b] =
      fromLeBytes ((byteTags tags (Vector.zipWith (· ^^^ ·) (Vector.replicate 16 0) (copyPrefix 16 [b]))).toList.take 8) :=
    fun b => by simp [prfTag, absorb]
  have first : ∀ b : UInt8, (copyPrefix 16 [b])[0] = b := by
    intro b
    rw [copyPrefix, Vector.getElem_ofFn]
    rfl
  rw [single]
  apply byteTags_of_head
  rw [Vector.getElem_zipWith, Vector.getElem_replicate, UInt8.zero_xor, first, UInt8.toNat_ofNat_of_lt' i.2]

/-- Two shards of a batch of 256 keys: some of the batches overflow this quota. -/
theorem quota_of_256 : suggestedPerShardQuotaWithFrontends binomSf 256 (2 ^ 1) 80 1 ≤ 250 := by
  have shards : (1 / ((2 ^ 1 : Nat) : ℝ)) = 1 / 2 := by norm_num
  rw [suggestedPerShardQuotaWithFrontends_eq binomSf 256 (2 ^ 1) 80 (Nat.le_refl 1) (by decide), Nat.clog_one_right,
    Nat.min_eq_left (by decide), Nat.one_mul, suggestedPerShardQuota_of_le binomSf _ _ (by decide), shards]
  refine bisect_le (by decide) fun j far => ?_
  have bound := binomSf_half_le 256 j
  have grows : (3 : ℝ) ^ 250 ≤ 3 ^ j := pow_le_pow_right₀ (by norm_num) far
  have target : 2 * 2 ^ 256 ≤ (2 : ℝ) ^ (-((80 : Nat) : ℤ)) * (1 / 2) * 3 ^ 250 := by norm_num
  have meets := bound.trans (target.trans (mul_le_mul_of_nonneg_left grows (by positivity)))
  exact le_of_mul_le_mul_right meets (by positivity)

section Runs
open ShardedObliviousHistogram
variable [Add V] [Inhabited V] {d : Nat}

omit [Add V] [Inhabited V] in
theorem over_mono {keys keys' : List UInt8 → Prop} (sub : ∀ key, keys key → keys' key) {op : ShardedOp V}
    (over' : op.Over keys) : op.Over keys' := by
  cases op with
  | append key val => exact sub key over'
  | readTotal key draws => exact sub key over'
  | _ => trivial

/-- With these tags a whole run overflows only when one of the batches that it routes is crowded. -/
theorem runNew_overflows (source : ∀ eps e, math.newSampler eps = .error e → ¬ e.BatchOverflow)
    (slack : Nat → Nat → Nat → Nat) (blockSize total : Nat) {key : Fin d → List UInt8}
    (injective : Function.Injective fun i => copyPrefix K (key i)) {tags : Fin d → UInt64} (apart : TagsApart tags)
    {prf : Aes128} (tagged : ∀ i, prfTag prf (key i) = tags i) {prfs : List Aes128} (shards : prfs.length ≠ 0)
    {batchSize quota f q : Nat} (some : 1 ≤ f) (split : quota = f * q) (chunks : batchSize / f ≠ 0)
    {ops : List (ShardedOp V)} (over' : ∀ op ∈ ops, op.Over fun name => ∃ i, key i = name) :
    OverflowsOnlyIf (∃ batch ∈ ShardedOp.routedBatches batchSize [] ops,
        Crowded (fun i => copyPrefix K (key i)) prfs.length f q batchSize batch tags)
      (runNew math slack blockSize prfs total batchSize quota f prf ops :
        Except Panic (List (Option V) × ShardedObliviousHistogram Z K A S V)) := by
  refine (newWithFrontends_overflows _ _ _ _ _ _ _).bind fun h start => ?_
  obtain ⟨height, -, coordinated, length, -, -, -, -, frontends, capacity, quota', pending, prf', -⟩ :=
    newWithFrontends_coordinated start
  have count : h.router.shardCount = prfs.length := coordinated.formed.shards.trans length
  have awaiting : Awaiting (fun i => copyPrefix K (key i)) tags h [] h := by
    refine ⟨⟨_, coordinated⟩, .refl h, ?_, by rw [pending]; rfl⟩
    rw [pending]
    exact fun b hb => absurd hb List.not_mem_nil
  have known : ∀ op ∈ ops, op.Over fun name =>
      ∃ i, prfTag h.router.prf name = tags i ∧ copyPrefix K name = copyPrefix K (key i) := by
    intro op hop
    refine over_mono ?_ (over' op hop)
    rintro name ⟨i, rfl⟩
    exact ⟨i, by rw [prf', tagged], rfl⟩
  have blame := awaiting.run_overflows slack source known fun batch g waits fails =>
    waits.crowded injective apart (count ▸ shards) (frontends.trans (Nat.max_eq_left some)) (quota'.trans split)
      (capacity.symm ▸ chunks) fails
  rwa [count, capacity] at blame

/-- With the suggested quota a whole run of the sharded histogram, over keys with uniformly random tags, ends in a batch
overflow only with the promised probability for each batch that it routes, and once the probability that two of the
keys share the bits of the sort key. -/
theorem batch_overflow_rare {bits k f : Nat} (few : k ≤ 32) (some : 1 ≤ f) (word : f < 2 ^ 64)
    (fits : bits + Nat.clog 2 f < 2 ^ 31) {batchSize : Nat} (full : f ≤ batchSize) {prfs : List Aes128} (count : prfs.length = 2 ^ k)
    (source : ∀ eps e, math.newSampler eps = .error e → ¬ e.BatchOverflow) (slack : Nat → Nat → Nat → Nat)
    (blockSize total : Nat) {key : Fin d → List UInt8} (injective : Function.Injective fun i => copyPrefix K (key i))
    {prf : (Fin d → UInt64) → Aes128} (tagged : ∀ tags i, prfTag (prf tags) (key i) = tags i) {ops : List (ShardedOp V)}
    (over' : ∀ op ∈ ops, op.Over fun name => ∃ i, key i = name) :
    let quota := suggestedPerShardQuotaWithFrontends binomSf batchSize (2 ^ k) bits f
    let outcome (tags : Fin d → UInt64) : Except Panic (List (Option V) × ShardedObliviousHistogram Z K A S V) :=
      runNew math slack blockSize prfs total batchSize quota f (prf tags) ops
    Tape.prob (fun tags => ∃ e, outcome tags = .error e ∧ e.BatchOverflow) ≤
      (ShardedOp.routedBatches (K := K) batchSize [] ops).length * (tailError (batchSize / f) * (2 : ℝ) ^ (-(bits : ℤ))) +
        d.choose 2 / (2 ^ 57 : Nat) := by
  intro quota outcome
  obtain ⟨q, split, bound⟩ := suggested_bound batchSize (Nat.one_le_two_pow (n := k)) some word fits.le
  have chunks : batchSize / f ≠ 0 := (Nat.div_pos full some).ne'
  let payload (i : Fin d) : Vector UInt8 K := copyPrefix K (key i)
  have rare := prob_exists_mem_le (Crowded payload (2 ^ k) f q batchSize) (ShardedOp.routedBatches batchSize [] ops)
    fun batch _ => (prob_crowded_le injective few f q batchSize batch).trans bound
  refine (Tape.prob_or_le fun tags failed => ?_).trans (add_le_add rare (prob_not_tagsApart d))
  by_cases apart : TagsApart tags
  · obtain ⟨e, failed, overflow⟩ := failed
    have blame := runNew_overflows source slack blockSize total injective apart (tagged tags)
      (count ▸ (Nat.two_pow_pos k).ne') some split chunks over' e failed overflow
    rw [count] at blame
    exact .inl blame
  · exact .inr apart

/-- All keys of one byte in one batch, of which the quota lets a shard take 250 at most. -/
theorem batch_overflow_rare_bytes :
    let ops : List (ShardedOp Nat) := (List.finRange 256).map fun i => .append [.ofNat i.1] 1
    let quota := suggestedPerShardQuotaWithFrontends binomSf 256 (2 ^ 1) 80 1
    let outcome (tags : Fin 256 → UInt64) : Except Panic (List (Option Nat) × ShardedObliviousHistogram 4 1 1 256 Nat) :=
      runNew .constant (fun _ _ _ => 0) 1 [id, id] 1024 256 quota 1 (byteTags tags) ops
    quota ≤ 250 ∧ Tape.prob (fun tags => ∃ e, outcome tags = .error e ∧ e.BatchOverflow) ≤
      1 * (tailError 256 * (2 : ℝ) ^ (-(80 : ℤ))) + (32640 : Nat) / (2 ^ 57 : Nat) := by
  intro ops quota outcome
  have injective : Function.Injective fun i : Fin 256 => copyPrefix 1 [.ofNat i.1] := by
    intro i j same
    have heads : UInt8.ofNat i.1 = UInt8.ofNat j.1 := congrArg (fun block : Vector UInt8 1 => block[0]) same
    rw [← UInt8.toNat_inj, UInt8.toNat_ofNat_of_lt' i.2, UInt8.toNat_ofNat_of_lt' j.2] at heads
    exact Fin.ext heads
  have named : ∀ op ∈ ops, op.Over fun name => ∃ i : Fin 256, [.ofNat i.1] = name := by
    intro op there
    obtain ⟨i, -, rfl⟩ := List.mem_map.mp there
    exact ⟨i, rfl⟩
  have source : ∀ eps e, ResizeMath.constant.newSampler eps = .error e → ¬ e.BatchOverflow := by
    intro eps e failed
    simp [ResizeMath.constant] at failed
  have batches : (ShardedOp.routedBatches (K := 1) 256 [] ops).length = 1 := by decide +kernel
  have rare : Tape.prob (fun tags => ∃ e, outcome tags = .error e ∧ e.BatchOverflow) ≤
      (ShardedOp.routedBatches (K := 1) 256 [] ops).length * (tailError (256 / 1) * (2 : ℝ) ^ (-((80 : Nat) : ℤ))) +
        Nat.choose 256 2 / (2 ^ 57 : Nat) :=
    batch_overflow_rare (show 1 ≤ 32 by decide) (Nat.le_refl 1) (by decide)
      (show 80 + Nat.clog 2 1 < 2 ^ 31 by
        rw [Nat.clog_one_right]
        decide)
      (by decide) rfl source (fun _ _ _ => 0) 1 1024 injective prfTag_byteTags named
  have pairs : Nat.choose 256 2 = 32640 := Nat.choose_two_right 256
  rw [batches, pairs, Nat.div_one, Nat.cast_one] at rare
  exact ⟨quota_of_256, rare⟩

end Runs
end Roga
