import Roga.Histogram.Ops

/-! The bulk exports of a tree. -/
namespace Roga
open Ct Djbsort
variable {Z K A S : Nat} {V : Type}

/-- One byte of the comparison loop, on `greater` and `less`. -/
def compareByte (state : UInt8 × UInt8) (bytes : UInt8 × UInt8) : UInt8 × UInt8 :=
  let undecided := ctNot (state.1 ||| state.2)
  (state.1 ||| (undecided &&& ctLtU8 bytes.2 bytes.1), state.2 ||| (undecided &&& ctLtU8 bytes.1 bytes.2))

/-- `for i in 0..K` of the comparators, from the state given. -/
def comparePayloads (a b : Vector UInt8 K) (state : UInt8 × UInt8) : UInt8 × UInt8 :=
  (a.toList.zip b.toList).foldl compareByte state

def payloadGt (a b : OramBlock K V) : UInt8 :=
  let aReal := ctIsReal a.tag
  let bReal := ctIsReal b.tag
  let aDummyAfterReal := ctNot aReal &&& bReal
  let bothReal := aReal &&& bReal
  let (greater, _) := comparePayloads a.payload b.payload (0, 0)
  aDummyAfterReal ||| (bothReal &&& greater)

/-- Routing bits first, then the remaining bits of the tag. -/
def treeOrder (tag : UInt64) : UInt64 := (routingBits tag <<< 32) ||| (tag >>> 32)

def treeReadoutGt (a b : OramBlock K V) : UInt8 :=
  let aReal := ctIsReal a.tag
  let bReal := ctIsReal b.tag
  let aDummyAfterReal := ctNot aReal &&& bReal
  let bothReal := aReal &&& bReal
  let aOrder := treeOrder a.tag
  let bOrder := treeOrder b.tag
  let (greater, _) := comparePayloads a.payload b.payload (ctLt bOrder aOrder, ctLt aOrder bOrder)
  aDummyAfterReal ||| (bothReal &&& greater)

section Readout
variable [Add V] [Inhabited V]

def obliviousReadout (blocks : List (OramBlock K V)) : List (OramBlock K V) :=
  let blocks := sortBy blocks payloadGt
  let blocks := reduceEqualRuns blocks
  compactPayload blocks (compactMarks blocks)

omit [Add V] [Inhabited V] in
/-- One depth of the loop: sort each bucket, compact the level and merge it into
the levels before it. -/
def mergeLevel (Z : Nat) (blocks : List (OramBlock K V)) (depth : Nat) : List (OramBlock K V) :=
  let levelStart := 2 ^ depth * Z
  let levelEnd := 2 ^ (depth + 1) * Z
  let level := (List.range (2 ^ depth)).flatMap fun i => sortBy (bucketAt Z blocks (2 ^ depth + i)) treeReadoutGt
  let level := compactPayload level (compactMarks level)
  mergeSortedBy (blocks.take levelStart ++ level) levelStart treeReadoutGt ++ blocks.drop levelEnd

/-- `oblivious_tree_readout`. The runs of the merge network must be powers of two. -/
def obliviousTreeReadout (Z : Nat) (blocks : List (OramBlock K V)) (overflowLen height : Nat) :
    List (OramBlock K V) :=
  let treeLen := 2 ^ (height + 1) * Z
  if overflowLen ≠ 2 ^ Nat.log2 overflowLen ∨ overflowLen > treeLen then obliviousReadout blocks
  else
    let blocks := (List.range (height + 1)).foldl (mergeLevel Z) blocks
    let blocks := blocks.take treeLen ++ sortBy (blocks.drop treeLen) treeReadoutGt
    let blocks := mergeSortedBy blocks treeLen treeReadoutGt
    reduceEqualRuns blocks

omit [Inhabited V] in
/-- The merge loop of `export_entries`, with the current entry. -/
def mergeEntries (tag : UInt64) (payload : Vector UInt8 K) (val : V) :
    List (OramBlock K V) → List (UInt64 × Vector UInt8 K × V)
  | [] => [(tag, payload, val)]
  | block :: blocks =>
    if block.payload = payload then mergeEntries tag payload (val + block.value) blocks
    else (tag, payload, val) :: mergeEntries block.tag block.payload block.value blocks

/-- A payload as a list of numbers, compared lexicographically. -/
def bytes (payload : Vector UInt8 K) : List Nat := payload.toList.map UInt8.toNat

namespace ObliviousHistogram

def readout (h : ObliviousHistogram Z K A S V) : List (OramBlock K V) :=
  obliviousReadout (h.physicalMemory ++ h.stash.overflowSlots)

/-- `readout_tree_aware`, through `readout_tree_aware_into` on a buffer of `readout_len` slots. -/
def readoutTreeAware (h : ObliviousHistogram Z K A S V) : List (OramBlock K V) :=
  obliviousTreeReadout Z (h.physicalMemory ++ h.stash.overflowSlots)
    (h.stash.blocks.length - h.stash.pathSize) h.height

/-- The same network run in the consumed tree's own allocation. -/
def intoReadoutTreeAware (h : ObliviousHistogram Z K A S V) : List (OramBlock K V) :=
  let overflowLen := h.stash.blocks.length - h.stash.pathSize
  let blocks := h.physicalMemory
  let blocks := blocks ++ h.stash.overflowSlots
  obliviousTreeReadout Z blocks overflowLen h.height

/-- The standard library's stable sort by payload, then one entry for each run. -/
def exportEntries (h : ObliviousHistogram Z K A S V) : List (UInt64 × Vector UInt8 K × V) :=
  let blocks := h.stash.blocks.filter (fun block => ctIsReal block.tag != 0) ++
    h.physicalMemory.filter fun block => ctIsReal block.tag != 0
  match blocks.mergeSort fun a b => decide (bytes a.payload ≤ bytes b.payload) with
  | [] => []
  | block :: blocks => mergeEntries block.tag block.payload block.value blocks

end ObliviousHistogram
end Readout
end Roga
