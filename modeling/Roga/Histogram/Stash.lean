import Roga.Oblivious.Compaction
import Roga.Slots.Buckets

/-! The oblivious stash of `stash.rs`. Its scratch vectors are overwritten
before every use and are local values here. -/
namespace Roga
open Ct

/-- What a run can abort with. -/
inductive Panic
  /-- stash overflow after write_to_path -/
  | writeToPathOverflow (overflowCount overflowCapacity len pathSize : Nat)
  /-- stash overflow on buffered insert: no free overflow slot -/
  | bufferedInsertOverflow
  /-- stash overflow on buffered batch insert -/
  | batchInsertOverflow (realLen overflowLen : Nat)
  /-- sharded OSAM batch overflow -/
  | shardBatchOverflow (maxLoad subQuota : Nat)
  /-- chunk size must be non-zero -/
  | chunkSizeZero
  /-- an arithmetic panic: remainder by zero, `ilog2` of zero or a subtraction below zero -/
  | arithmetic
  /-- cannot grow past MAX_TREE_HEIGHT -/
  | growPastMaxTreeHeight
  /-- a failed assertion -/
  | assertion (message : String)
deriving DecidableEq

/-- `path_size` path slots followed by the overflow slots. -/
structure ObliviousStash (Z K S : Nat) (V : Type) where
  blocks : List (OramBlock K V)
  pathSize : Nat

namespace ObliviousStash
variable {Z K S : Nat} {V : Type}

/-- The overflow region. -/
def overflowSlots (stash : ObliviousStash Z K S V) : List (OramBlock K V) :=
  stash.blocks.drop stash.pathSize

/-- `blocks[path_size..] = ..` -/
def withOverflow (stash : ObliviousStash Z K S V) (slots : List (OramBlock K V)) :
    ObliviousStash Z K S V :=
  { stash with blocks := stash.blocks.take stash.pathSize ++ slots }

def new [Inhabited V] (pathSize : Nat) : ObliviousStash Z K S V :=
  { blocks := List.replicate (pathSize + S) OramBlock.dummy, pathSize }

def deepestSharedLevel (targetLeaf : TreeIndex) (blockTag : UInt64) (height : Nat) : Nat :=
  let blockLeaf := toLeaf blockTag height
  let differingBits := targetLeaf ^^^ blockLeaf
  let sharedPrefixBits := leadingZeros differingBits
  (height + sharedPrefixBits) - 64

/-- One level of the inner loop of `write_to_path`, on the level counts and `assigned`. -/
def assignLevel (Z blockLevel : Nat) (blockIsReal : UInt8) (state : List Nat × UInt8) (level : Nat) :
    List Nat × UInt8 :=
  let legalLevel := ctLtCount level (blockLevel + 1)
  let bucketNotFull := ctLtCount (state.1.getD level 0) Z
  let shouldAssign := legalLevel &&& bucketNotFull &&& ctNot state.2 &&& blockIsReal
  (state.1.set level (state.1.getD level 0 + shouldAssign.toNat), state.2 ||| shouldAssign)

/-- One block of the outer loop, on the level counts and the overflow count. -/
def assignBlock (Z position height : Nat) (state : List Nat × Nat) (block : OramBlock K V) :
    List Nat × Nat :=
  let blockIsReal := ctIsReal block.tag
  let blockLevel := deepestSharedLevel position block.tag height
  let assigned := (List.range (height + 1)).reverse.foldl (assignLevel Z blockLevel blockIsReal)
    (state.1, 0)
  let shouldOverflow := blockIsReal &&& ctNot assigned.2
  (assigned.1, state.2 + shouldOverflow.toNat)

/-- Leaf bucket first, `count` marked slots out of `Z` in each, then the overflow slots. -/
def buildLeafToRootLayoutMarks (Z : Nat) (levelCounts : List Nat) (overflowCount pathSize len : Nat) :
    List Nat :=
  0 :: runningMarks 0
    (levelCounts.reverse.flatMap (fun count => (List.range Z).map fun slot => ctLtCount slot count) ++
      (List.range (len - pathSize)).map fun slot => ctLtCount slot overflowCount)

def writeToPath [Inhabited V] (stash : ObliviousStash Z K S V)
    (physicalMemory : List (OramBlock K V)) (position : TreeIndex) :
    Except Panic (ObliviousStash Z K S V × List (OramBlock K V)) :=
  let height := ctDepth position
  let nLevels := height + 1
  let (levelCounts, overflowCount) :=
    stash.blocks.foldl (assignBlock Z position height) (List.replicate 32 0, 0)
  let overflowCapacity := stash.blocks.length - stash.pathSize
  if overflowCount ≥ overflowCapacity then
    .error (.writeToPathOverflow overflowCount overflowCapacity stash.blocks.length stash.pathSize)
  else
    let compacted := compactPayload stash.blocks (compactMarks stash.blocks)
    let marks := buildLeafToRootLayoutMarks Z (levelCounts.take nLevels) overflowCount stash.pathSize
      stash.blocks.length
    let blocks := distributePayload compacted marks
    let physicalMemory := setBuckets Z (fun depth => ctNodeOnPath position depth height)
      (fun depth => bucketAt Z blocks (height - depth)) (List.range (height + 1)) physicalMemory
    .ok ({ stash with
      blocks := List.replicate stash.pathSize OramBlock.dummy ++ blocks.drop stash.pathSize },
      physicalMemory)

/-- The loop of `read_and_remove`: the result so far and the slots written back. -/
def readAndRemoveLoop (target : Vector UInt8 K) (resultValue : V) (resultPayload : Vector UInt8 K) :
    List (OramBlock K V) → V × Vector UInt8 K × List (OramBlock K V)
  | [] => (resultValue, resultPayload, [])
  | block :: blocks =>
    let isTarget := ctEqBytes block.payload target &&& ctIsReal block.tag
    let value := block.value
    let r := readAndRemoveLoop target (cmovnz resultValue value isTarget)
      (if isTarget ≠ 0 then block.payload else resultPayload) blocks
    (r.1, r.2.1, block.conditionalDummy isTarget :: r.2.2)

def readAndRemove [Inhabited V] (stash : ObliviousStash Z K S V) (payload : Vector UInt8 K) :
    V × Vector UInt8 K × ObliviousStash Z K S V :=
  let r := readAndRemoveLoop payload default (Vector.replicate K 0) stash.blocks
  (r.1, r.2.1, { stash with blocks := r.2.2 })

/-- The loop of `insert` over the overflow slots, with `placed`. -/
def insertLoop (tag : UInt64) (epoch : UInt8) (value : V) (payload : Vector UInt8 K) (placed : UInt8) :
    List (OramBlock K V) → UInt8 × List (OramBlock K V)
  | [] => (placed, [])
  | block :: blocks =>
    let isDummy := ctNot (ctIsReal block.tag)
    let put := isDummy &&& ctNot placed
    let r := insertLoop tag epoch value payload (placed ||| put) blocks
    (r.1, block.assignIf tag epoch value payload put :: r.2)

def insert (stash : ObliviousStash Z K S V) (tag : UInt64) (epoch : UInt8) (value : V)
    (payload : Vector UInt8 K) : Except Panic (ObliviousStash Z K S V) :=
  let r := insertLoop tag epoch value payload 0 stash.overflowSlots
  if r.1 = 0 then .error .bufferedInsertOverflow else .ok (stash.withOverflow r.2)

/-- A masked update: tag, epoch, value, payload and the condition byte. -/
abbrev MaskedUpdate (K : Nat) (V : Type) := UInt64 × UInt8 × V × Vector UInt8 K × UInt8

def insertBatch [Inhabited V] (stash : ObliviousStash Z K S V) (updates : List (MaskedUpdate K V)) :
    Except Panic (ObliviousStash Z K S V) :=
  let overflowLen := stash.blocks.length - stash.pathSize
  let workLen := overflowLen + updates.length
  let scratch := stash.overflowSlots ++ updates.map fun u =>
    OramBlock.dummy.assignIf u.1 u.2.1 u.2.2.1 u.2.2.2.1 (u.2.2.2.2 &&& 1)
  let marks := compactMarks scratch
  let realLen := marks.getD workLen 0
  if realLen > overflowLen then .error (.batchInsertOverflow realLen overflowLen)
  else
    let scratch := dummyPast realLen (compactPayload scratch marks)
    .ok (stash.withOverflow (scratch.take overflowLen))

/-- `splice` of `Z` dummies at the end of the path region. -/
def growExtendPathBuffer [Inhabited V] (stash : ObliviousStash Z K S V) : ObliviousStash Z K S V :=
  { blocks := stash.blocks.take stash.pathSize ++ List.replicate Z OramBlock.dummy ++
      stash.blocks.drop stash.pathSize
    pathSize := stash.pathSize + Z }

def occupancy (stash : ObliviousStash Z K S V) : Nat :=
  (stash.overflowSlots.map fun block => (ctIsReal block.tag).toNat).sum

/-- `count_matching_blocks`, a scan of all slots. -/
def countMatchingBlocks (stash : ObliviousStash Z K S V) (height : Nat) (targetLeaf : TreeIndex)
    (targetEpoch : UInt8) : Nat :=
  stash.blocks.foldl (fun result block =>
    let isReal := ctIsReal block.tag
    let leafMatch := ctEq (toLeaf block.tag height) targetLeaf
    let epochMatch := ctEq block.epoch targetEpoch
    let isMatch := isReal &&& leafMatch &&& epochMatch
    result + isMatch.toNat) 0

def readFromPath (stash : ObliviousStash Z K S V) (physicalMemory : List (OramBlock K V))
    (position : TreeIndex) : ObliviousStash Z K S V :=
  let height := ctDepth position
  { stash with
    blocks := setBuckets Z id (fun depth => bucketAt Z physicalMemory (ctNodeOnPath position depth height))
      (List.range (stash.pathSize / Z)).reverse stash.blocks }

def mergeAccumulateForPath [Add V] [Inhabited V] (stash : ObliviousStash Z K S V)
    (position : TreeIndex) : ObliviousStash Z K S V :=
  let height := ctDepth position
  { stash with blocks := sortReduce stash.blocks fun block => pathRankKey block.tag position height }

end ObliviousStash
end Roga
