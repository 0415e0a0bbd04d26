import Roga.Histogram.Partitioned
import Roga.Histogram.Run
import Roga.Sharded.Router

/-! The sharded histogram: a batch router over single trees, and the growth that
the first of them coordinates. -/
namespace Roga
open Ct
variable {Z K A S : Nat} {V : Type}

/-- `physical_memory.len() * size_of::<OramBlock>()`, with the block size given. -/
def ObliviousHistogram.sizeInBytes (blockSize : Nat) (h : ObliviousHistogram Z K A S V) : Nat :=
  h.physicalMemory.length * blockSize

def ObliviousHistogram.capacity (h : ObliviousHistogram Z K A S V) : Nat := 2 ^ h.height * Z

/-- `shard_coordination_slack` of the solver is a parameter. -/
def deflatedPerShardResizeTarget (shardCoordinationSlack : Nat → Nat → Nat → Nat) (Z totalBaselineTarget shardCount : Nat) :
    Nat :=
  let zScale := max (Z / 4) 1
  let effectiveTotalTarget := saturatingMul totalBaselineTarget zScale
  let perShardTarget := effectiveTotalTarget / shardCount
  let slack := shardCoordinationSlack perShardTarget shardCount 80
  let deflatedEffectiveTarget := perShardTarget - slack
  max (deflatedEffectiveTarget / zScale) 1

structure ShardedObliviousHistogram (Z K A S : Nat) (V : Type) where
  router : ShardedBatchRouter (ObliviousHistogram Z K A S V) K V
  epoch : UInt8
  capacity : Nat
  sizeInBytes : Nat
  autoResize : Bool

/-- `for_each` over the shards. -/
def forEachShard {Shard : Type} (f : Shard → Except Panic Shard) : List Shard → Except Panic (List Shard)
  | [] => .ok []
  | shard :: shards => do
    let shard ← f shard
    return shard :: (← forEachShard f shards)

namespace ShardedObliviousHistogram

section Model
variable [Add V] [Inhabited V] (math : ResizeMath)

/-- `process_batch_chunk`. The state that a panicking call leaves is not followed. -/
def processBatchChunk (shard : ObliviousHistogram Z K A S V) (chunk : List (OramBlock K V)) :
    Except Panic Unit × ObliviousHistogram Z K A S V :=
  match shard.appendPreparedMaskedBatch math (chunk.map fun b => (b.tag, b.value, b.payload, ctIsReal b.tag)) with
  | .ok shard => (.ok (), shard)
  | .error e => (.error e, shard)

omit [Add V] in
/-- The trees draw their own keys, which no operation of the sharded layer uses. -/
def newTrees (shardCapacity : Nat) : List Aes128 → Except Panic (List (ObliviousHistogram Z K A S V))
  | [] => .ok []
  | prf :: prfs => do
    let tree ← ObliviousHistogram.new shardCapacity prf
    return tree :: (← newTrees shardCapacity prfs)

omit [Add V] in
/-- One entry of `prfs` for each shard. -/
def newWithFrontends (blockSize : Nat) (prfs : List Aes128) (totalBlockCapacity batchSize perShardQuota frontendCount : Nat)
    (prf : Aes128) : Except Panic (ShardedObliviousHistogram Z K A S V) :=
  let shardCount := prfs.length
  if shardCount = 0 then .error .arithmetic
  else do
    let shardCapacity := totalBlockCapacity / shardCount
    let trees ← newTrees shardCapacity prfs
    let sizeInBytes := (trees.map (ObliviousHistogram.sizeInBytes blockSize)).sum
    return {
      router := .newWithFrontends trees batchSize perShardQuota frontendCount prf
      epoch := 0
      capacity := totalBlockCapacity
      sizeInBytes
      autoResize := false }

/-- The configuration of the shards from the given index on. -/
def enableShards (cfg : AutoResizeConfig) (deflatedTarget : Nat) :
    Nat → List (ObliviousHistogram Z K A S V) → Except Panic (List (ObliviousHistogram Z K A S V))
  | _, [] => .ok []
  | i, tree :: trees => do
    let shardCfg := { cfg with tCapacity := deflatedTarget, seed := cfg.seed + UInt64.ofNat i }
    let tree ← tree.enableDeferredAutoResize math shardCfg (decide (i = 0))
    return tree :: (← enableShards cfg deflatedTarget (i + 1) trees)

def enableAutoResize (shardCoordinationSlack : Nat → Nat → Nat → Nat) (h : ShardedObliviousHistogram Z K A S V)
    (cfg : AutoResizeConfig) : Except Panic (ShardedObliviousHistogram Z K A S V) := do
  let shardCount := h.router.shardCount
  let deflatedTarget := deflatedPerShardResizeTarget shardCoordinationSlack Z cfg.tCapacity shardCount
  let shards ← enableShards math cfg deflatedTarget 0 h.router.shards
  return { h with autoResize := true, router := { h.router with shards } }

def grow (h : ShardedObliviousHistogram Z K A S V) : Except Panic (ShardedObliviousHistogram Z K A S V) := do
  let shards ← forEachShard (ObliviousHistogram.grow math) h.router.shards
  return { h with
    epoch := ObliviousHistogram.saturatingSucc h.epoch
    router := { h.router with shards }
    capacity := h.capacity * 2
    sizeInBytes := h.sizeInBytes * 2 }

def handleDeferredResize (h : ShardedObliviousHistogram Z K A S V) :
    Except Panic (ShardedObliviousHistogram Z K A S V) :=
  if !h.autoResize then .ok h
  else
    match h.router.shards with
    | [] => .ok h
    | tree :: trees => do
      let (growSignal, tree) ← tree.takeDeferredAutoResizeSignal
      match growSignal with
      | some target =>
        let shards ← forEachShard (fun tree => tree.applyDeferredAutoResizeGrow math target) (tree :: trees)
        return { h with
          router := { h.router with shards }
          capacity := h.capacity * 2
          sizeInBytes := h.sizeInBytes * 2 }
      | none => return { h with router := { h.router with shards := tree :: trees } }

/-- The flush of the router. -/
def flushRouter (h : ShardedObliviousHistogram Z K A S V) : Except Panic (ShardedObliviousHistogram Z K A S V) :=
  match h.router.flush (processBatchChunk math) with
  | (.ok (), router) => .ok { h with router }
  | (.error e, _) => .error e

def flush (h : ShardedObliviousHistogram Z K A S V) : Except Panic (ShardedObliviousHistogram Z K A S V) := do
  let h ← h.flushRouter math
  h.handleDeferredResize math

def append (h : ShardedObliviousHistogram Z K A S V) (key : List UInt8) (value : V) :
    Except Panic (ShardedObliviousHistogram Z K A S V) :=
  let preparedKey := prfTag h.router.prf key
  let payload := copyPrefix K key
  let h := { h with router := { h.router with
    pending := h.router.pending ++ [OramBlock.real preparedKey h.epoch value payload] } }
  if h.router.pending.length ≥ h.router.batchCapacity then h.flush math else .ok h

omit math in
/-- The shards from index `shard` on: the target is read, the others make a dummy access on a
leaf drawn for them. -/
def readShards (targetShard : Nat) (preparedKey : UInt64) (payload : Vector UInt8 K) (draws : Nat → Nat) :
    Nat → List (ObliviousHistogram Z K A S V) → V → Except Panic (V × List (ObliviousHistogram Z K A S V))
  | _, [], result => .ok (result, [])
  | shard, tree :: trees, result =>
    if shard = targetShard then do
      let (result, tree) ← tree.readPreparedTotal preparedKey payload
      let (result, trees) ← readShards targetShard preparedKey payload draws (shard + 1) trees result
      return (result, tree :: trees)
    else do
      let tree ← tree.readDummy (draws shard)
      let (result, trees) ← readShards targetShard preparedKey payload draws (shard + 1) trees result
      return (result, tree :: trees)

def readTotal (h : ShardedObliviousHistogram Z K A S V) (key : List UInt8) (draws : Nat → Nat) :
    Except Panic (V × ShardedObliviousHistogram Z K A S V) := do
  let h ← h.flush math
  let (targetShard, preparedKey) := prepareKey h.router.prf key h.router.shardCount
  let payload := copyPrefix K key
  let (result, shards) ← readShards targetShard preparedKey payload draws 0 h.router.shards default
  return (result, { h with router := { h.router with shards } })

omit [Add V] [Inhabited V] math in
def totalCapacity (h : ShardedObliviousHistogram Z K A S V) : Nat := h.capacity

omit [Add V] [Inhabited V] math in
def readoutLen (h : ShardedObliviousHistogram Z K A S V) : Nat :=
  (h.router.shards.map ObliviousHistogram.readoutLen).sum

def readout (h : ShardedObliviousHistogram Z K A S V) :
    Except Panic (List (OramBlock K V) × ShardedObliviousHistogram Z K A S V) := do
  let h ← h.flush math
  let result := h.router.shards.flatMap ObliviousHistogram.readout
  return (compactPayload result (compactMarks result), h)

def readoutTreeAware (h : ShardedObliviousHistogram Z K A S V) :
    Except Panic (List (OramBlock K V) × ShardedObliviousHistogram Z K A S V) := do
  let h ← h.flush math
  let perShardLen := (h.router.shards.head?.map ObliviousHistogram.readoutLen).getD 0
  if h.router.shards.all fun shard => shard.readoutLen == perShardLen then
    return (h.router.shards.flatMap ObliviousHistogram.readoutTreeAware, h)
  else .error (.assertion "coordinated shards must have equal public readout lengths")

omit math in
/-- The outputs emitted, up to the first shard that reports an overflow. -/
def emitShards (suggestedPerShardQuota : Nat → Nat → Nat → Nat) (localHeight securityBits : Nat) :
    List (ObliviousHistogram Z K A S V) → Except SubtreeReadoutOverflow Unit × List (List (OramBlock K V))
  | [] => (.ok (), [])
  | shard :: shards =>
    match shard.readoutSubtreePartitioned suggestedPerShardQuota localHeight securityBits with
    | .error e => (.error e, [])
    | .ok output =>
      let (outcome, outputs) := emitShards suggestedPerShardQuota localHeight securityBits shards
      (outcome, output :: outputs)

/-- Dropping the consumed histogram panics when updates are pending. -/
def intoReadoutSubtreePartitioned (suggestedPerShardQuota : Nat → Nat → Nat → Nat) (h : ShardedObliviousHistogram Z K A S V)
    (localHeight securityBits : Nat) :
    Except Panic (Except SubtreeReadoutOverflow Unit × List (List (OramBlock K V))) := do
  let h ← h.flush math
  if h.router.pending = [] then
    return emitShards suggestedPerShardQuota localHeight securityBits h.router.shards
  else .error (.assertion "ShardedObliviousHistogram dropped with pending updates")

def exportEntries (h : ShardedObliviousHistogram Z K A S V) :
    Except Panic (List (UInt64 × Vector UInt8 K × V) × ShardedObliviousHistogram Z K A S V) := do
  let h ← h.flush math
  return (h.router.shards.flatMap ObliviousHistogram.exportEntries, h)

end Model
end ShardedObliviousHistogram

/-- The operations of a sharded histogram with their arguments. -/
inductive ShardedOp (V : Type)
  | append (key : List UInt8) (val : V)
  | flush
  | readTotal (key : List UInt8) (draws : Nat → Nat)
  | grow
  | enableAutoResize (cfg : AutoResizeConfig)

namespace ShardedObliviousHistogram
variable [Add V] [Inhabited V] (math : ResizeMath) (shardCoordinationSlack : Nat → Nat → Nat → Nat)

/-- One operation, with the value it returns if it is a read. -/
def step (h : ShardedObliviousHistogram Z K A S V) :
    ShardedOp V → Except Panic (Option V × ShardedObliviousHistogram Z K A S V)
  | .append key val => do return (none, ← h.append math key val)
  | .flush => do return (none, ← h.flush math)
  | .readTotal key draws => do
    let (v, h) ← h.readTotal math key draws
    return (some v, h)
  | .grow => do return (none, ← h.grow math)
  | .enableAutoResize cfg => do return (none, ← h.enableAutoResize math shardCoordinationSlack cfg)

/-- A run that does not panic, with what its operations returned. -/
def run (h : ShardedObliviousHistogram Z K A S V) :
    List (ShardedOp V) → Except Panic (List (Option V) × ShardedObliviousHistogram Z K A S V)
  | [] => .ok ([], h)
  | op :: ops => do
    let (out, h) ← h.step math shardCoordinationSlack op
    let (outs, h) ← h.run ops
    return (out :: outs, h)

end ShardedObliviousHistogram
end Roga
