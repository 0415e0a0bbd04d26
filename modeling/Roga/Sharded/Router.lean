import Roga.Oblivious.Router
import Roga.Oblivious.Crypto
import Roga.Histogram.Stash

/-! The batch router of the sharded layer: frontends sort, reduce and route their
part of a batch, and every shard processes its slots of every frontend. -/
namespace Roga
open Ct
variable {Shard : Type} {K : Nat} {V : Type}

def shardIndexForTag (tag : UInt64) (shardCount : Nat) : Nat :=
  let shardRaw := tag >>> 32
  shardRaw.toNat &&& (shardCount - 1)

def prepareKey (prf : Aes128) (key : List UInt8) (shardCount : Nat) : Nat × UInt64 :=
  let tag := prfTag prf key
  (shardIndexForTag tag shardCount, tag)

/-- The sort key of a frontend: shard, dummy bit and 57 bits of the tag. -/
def shardSortKey (shardCount : Nat) (tag : UInt64) : UInt64 :=
  let shard := UInt64.ofNat (shardIndexForTag tag shardCount)
  let real := ctIsReal tag
  (shard <<< 58) ||| ((ctNot real).toUInt64 <<< 57) ||| (tag &&& 0x01ffffffffffffff)

/-- The scratch vectors of a frontend are written before they are read, so only
the routed blocks remain of it. -/
structure RouterFrontend (K : Nat) (V : Type) where
  routerBlocks : List (OramBlock K V)

/-- `chunks(size)`: the last one may be shorter. -/
def chunksOf {T : Type} (size : Nat) (xs : List T) : List (List T) :=
  (List.range ((xs.length + size - 1) / size)).map (bucketAt size xs)

structure ShardedBatchRouter (Shard : Type) (K : Nat) (V : Type) where
  shards : List Shard
  prf : Aes128
  shardCount : Nat
  batchCapacity : Nat
  perShardQuota : Nat
  frontendCount : Nat
  pending : List (OramBlock K V)
  frontends : List (RouterFrontend K V)

section Route
variable [Add V] [Inhabited V]

def RouterFrontend.new (subBatchSize shardCount perShardSubQuota : Nat) : RouterFrontend K V :=
  let routedLen := shardCount * perShardSubQuota
  let maxCap := max routedLen subBatchSize
  { routerBlocks := List.replicate maxCap OramBlock.dummy }

/-- `shard_count - 1` in the shard index is below zero without shards. -/
def processSubBatch (batchSlice : List (OramBlock K V)) (shardCount perShardSubQuota : Nat) :
    Except Panic (RouterFrontend K V) :=
  if shardCount = 0 then .error .arithmetic
  else
    let (routerBlocks, reducedLen) := sortReduceCompact batchSlice fun block => shardSortKey shardCount block.tag
    let routerCounts := countLoads (shardIndexForTag · shardCount) shardCount routerBlocks reducedLen
    let maxLoad := maxLoad routerCounts
    if maxLoad ≤ perShardSubQuota then
      let routedLen := shardCount * perShardSubQuota
      let routerBlocks := resizeBlocks routerBlocks routedLen
      let routerDistMarks := buildDistributeMarksRouter routerCounts perShardSubQuota
      .ok { routerBlocks := distributePayload routerBlocks routerDistMarks }
    else .error (.shardBatchOverflow maxLoad perShardSubQuota)

namespace ShardedBatchRouter

def newWithFrontends (shards : List Shard) (batchSize perShardQuota frontendCount : Nat) (prf : Aes128) :
    ShardedBatchRouter Shard K V :=
  let shardCount := shards.length
  let frontendCount := max frontendCount 1
  let subBatchSize := batchSize / frontendCount
  let perShardSubQuota := perShardQuota / frontendCount
  { shards, prf, shardCount
    batchCapacity := batchSize
    perShardQuota, frontendCount
    pending := []
    frontends := List.replicate frontendCount (.new subBatchSize shardCount perShardSubQuota) }

/-- The frontends that have a chunk process it; the others keep what they hold. -/
def processChunks (shardCount subQuota : Nat) : List (RouterFrontend K V) → List (List (OramBlock K V)) →
    Except Panic (List (RouterFrontend K V))
  | [], _ => .ok []
  | frontends, [] => .ok frontends
  | _ :: frontends, chunk :: chunks => do
    let frontend ← processSubBatch chunk shardCount subQuota
    return frontend :: (← processChunks shardCount subQuota frontends chunks)

/-- The routing phase of a flush: it reads the batch and no shard. -/
def routeBatch (router : ShardedBatchRouter Shard K V) (batch : List (OramBlock K V)) :
    Except Panic (List (RouterFrontend K V)) :=
  let n := router.batchCapacity
  let fCount := router.frontends.length
  let subN := n / fCount
  let subQuota := router.perShardQuota / fCount
  if subN = 0 then .error .chunkSizeZero
  else processChunks router.shardCount subQuota router.frontends (chunksOf subN (batch.take n))

omit [Add V] [Inhabited V] in
/-- The slots of shard `s` in every frontend. -/
def shardChunks (frontends : List (RouterFrontend K V)) (subQuota s : Nat) : List (List (OramBlock K V)) :=
  frontends.map fun f => bucketAt subQuota f.routerBlocks s

/-- `for f in frontends`: a panic leaves the shard as the call has left it. -/
def processShard (processBatchChunk : Shard → List (OramBlock K V) → Except Panic Unit × Shard) (shard : Shard) :
    List (List (OramBlock K V)) → Except Panic Unit × Shard
  | [] => (.ok (), shard)
  | chunk :: chunks =>
    match processBatchChunk shard chunk with
    | (.ok (), shard) => processShard processBatchChunk shard chunks
    | (.error e, shard) => (.error e, shard)

/-- The shards in turn, the first of them with index `s`. -/
def processShards (processBatchChunk : Shard → List (OramBlock K V) → Except Panic Unit × Shard)
    (frontends : List (RouterFrontend K V)) (subQuota : Nat) : Nat → List Shard → Except Panic Unit × List Shard
  | _, [] => (.ok (), [])
  | s, shard :: shards =>
    match processShard processBatchChunk shard (shardChunks frontends subQuota s) with
    | (.ok (), shard) =>
      let (outcome, shards) := processShards processBatchChunk frontends subQuota (s + 1) shards
      (outcome, shard :: shards)
    | (.error e, shard) => (.error e, shard :: shards)

/-- The outcome of a flush with the router it leaves, also when it panics. -/
def flush (processBatchChunk : Shard → List (OramBlock K V) → Except Panic Unit × Shard)
    (router : ShardedBatchRouter Shard K V) : Except Panic Unit × ShardedBatchRouter Shard K V :=
  if router.pending = [] then (.ok (), router)
  else
    let n := router.batchCapacity
    let fCount := router.frontends.length
    let subQuota := router.perShardQuota / fCount
    let router :=
      if router.pending.length < n then { router with pending := resizeBlocks router.pending n } else router
    match router.routeBatch router.pending with
    | .error e => (.error e, router)
    | .ok frontends =>
      let router := { router with frontends }
      match processShards processBatchChunk frontends subQuota 0 router.shards with
      | (.error e, shards) => (.error e, { router with shards })
      | (.ok (), shards) =>
        let router := { router with shards }
        (.ok (), { router with pending := if router.pending.length = n then [] else router.pending.drop n })

end ShardedBatchRouter
end Route
end Roga
