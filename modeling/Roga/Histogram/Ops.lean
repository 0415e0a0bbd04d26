import Roga.Histogram.AutoResize
import Roga.Oblivious.Crypto

/-! The single-tree histogram: construction, the resize mechanism of
`resize.rs` and the insert, read and evict pipeline of `ops.rs`. -/
namespace Roga
open Ct

/-- What a run did, oldest last. No operation reads it. -/
inductive Event
  /-- one insert slot has been counted -/
  | slot
  /-- a real block has been inserted, with this payload and in this epoch -/
  | stored (payload : List UInt8) (epoch : UInt8)
  /-- a read has taken out the blocks of this payload -/
  | removed (payload : List UInt8)
  /-- a path has been read and is written back -/
  | access (leaf : TreeIndex)
  | sibling (leaf : TreeIndex)
  | evict (leaf : TreeIndex)
  /-- the accounting of an eviction has taken `c_sum` from one value to the other -/
  | counted (height : Nat) (leaf : TreeIndex) (epoch : UInt8) (cSum cSum' : Nat)
  /-- `evaluate_signal` has been called at this count, with this outcome -/
  | signal (cSum : Nat) (result : Option Nat)
  /-- the tree has grown, and the estimator goes on with this `c_sum`, `evictions_since_check` and
  `pending_grow` -/
  | grown (window : Option (Nat × Nat × Option Nat))
deriving DecidableEq

/-- The calls of `evaluate_signal`, latest first. -/
def signalsOf (trace : List Event) : List (Nat × Option Nat) :=
  trace.filterMap fun
    | .signal cSum result => some (cSum, result)
    | _ => none

/-- The insertions, the removals and the counts, latest first. -/
def historyOf (trace : List Event) : List Event :=
  trace.filter fun
    | .stored .. | .removed .. | .counted .. => true
    | _ => false

/-- The growths, latest first. -/
def growthsOf (trace : List Event) : List (Option (Nat × Nat × Option Nat)) :=
  trace.filterMap fun
    | .grown window => some window
    | _ => none

structure ObliviousHistogram (Z K A S : Nat) (V : Type) where
  physicalMemory : List (OramBlock K V)
  stash : ObliviousStash Z K S V
  height : Nat
  epoch : UInt8
  prf : Aes128
  appendCtr : Nat
  evictCtr : Nat
  sweepEnd : Nat
  autoResize : Option AutoResizeState
  peakOverflow : Nat
  trace : List Event

namespace ObliviousHistogram
variable {Z K A S : Nat} {V : Type}

/-- `u8::saturating_add(1)` -/
def saturatingSucc (epoch : UInt8) : UInt8 := if epoch = 255 then 255 else epoch + 1

/-- `z` is a power of two here, so its trailing zeros are its logarithm. -/
def treeHeightForCapacity (blockCapacity z : Nat) : Except Panic Nat :=
  if z ≠ 2 ^ Nat.log2 z then .error (.assertion "Z must be a power of two")
  else if blockCapacity = 0 then .error .arithmetic
  else
    let height := max (Nat.log2 blockCapacity - Nat.log2 z) 1
    if height ≤ maxTreeHeight then .ok height else .error (.assertion "height exceeds MAX_TREE_HEIGHT")

def new [Inhabited V] (blockCapacity : Nat) (prf : Aes128) :
    Except Panic (ObliviousHistogram Z K A S V) := do
  let height ← treeHeightForCapacity blockCapacity Z
  let pathSize := Z * (height + 1)
  let treeLen := 2 ^ (height + 1) * Z
  return {
    physicalMemory := List.replicate treeLen OramBlock.dummy
    stash := ObliviousStash.new pathSize
    height
    epoch := 0
    prf
    appendCtr := 0
    evictCtr := 0
    sweepEnd := 0
    autoResize := none
    peakOverflow := 0
    trace := [] }

def log (h : ObliviousHistogram Z K A S V) (event : Event) : ObliviousHistogram Z K A S V :=
  { h with trace := event :: h.trace }

/-- `readout_len` -/
def readoutLen (h : ObliviousHistogram Z K A S V) : Nat :=
  h.physicalMemory.length + (h.stash.blocks.length - h.stash.pathSize)

section Resize
variable (math : ResizeMath)

def configureAutoResize (h : ObliviousHistogram Z K A S V) (cfg : AutoResizeConfig)
    (deferChecks emitsGrowSignal : Bool) : Except Panic (ObliviousHistogram Z K A S V) := do
  let l := leafCount h.height
  let effectiveT := effectiveTCapacity Z cfg.tCapacity
  let k := dpInitialK math effectiveT l A
  let rng : AutoResizeRng := { seed := cfg.seed, drawn := 0 }
  let sampler ← math.newSampler cfg.eps
  let (tHatUnits, rng) ← dpEpochUnits math effectiveT l k cfg.alpha A sampler rng
  return { h with autoResize := some {
    config := cfg, k, tHatUnits, evictionsSinceCheck := 0, cSum := 0, totalResizes := 0
    deferred := deferChecks, emitsGrowSignal, pendingGrow := none, sampler, rng } }

def enableAutoResize (h : ObliviousHistogram Z K A S V) (cfg : AutoResizeConfig) :
    Except Panic (ObliviousHistogram Z K A S V) := h.configureAutoResize math cfg false true

def enableDeferredAutoResize (h : ObliviousHistogram Z K A S V) (cfg : AutoResizeConfig)
    (emitsGrowSignal : Bool) : Except Panic (ObliviousHistogram Z K A S V) :=
  h.configureAutoResize math cfg true emitsGrowSignal

def takeDeferredAutoResizeSignal (h : ObliviousHistogram Z K A S V) :
    Except Panic (Option Nat × ObliviousHistogram Z K A S V) :=
  match h.autoResize with
  | some auto =>
    if auto.deferred && auto.emitsGrowSignal then
      .ok (auto.pendingGrow, { h with autoResize := some { auto with pendingGrow := none } })
    else .error (.assertion "deferred auto-resize signals should only be consumed in deferred mode")
  | none => .error (.assertion "deferred auto-resize signals should only be consumed in deferred mode")

def growPhysicalStorage [Inhabited V] (h : ObliviousHistogram Z K A S V) :
    Except Panic (ObliviousHistogram Z K A S V) :=
  if h.height < maxTreeHeight then
    let oldHeight := h.height
    let newLen := h.physicalMemory.length * 2
    .ok { h with
      physicalMemory := h.physicalMemory ++
        List.replicate (newLen - h.physicalMemory.length) OramBlock.dummy
      height := h.height + 1
      epoch := saturatingSucc h.epoch
      sweepEnd := h.evictCtr + leafCount oldHeight
      stash := h.stash.growExtendPathBuffer }
  else .error .growPastMaxTreeHeight

/-- `if let Some(auto) = self.auto_resize.as_mut() { auto.on_tree_grown(..) }` -/
def onTreeGrown (h : ObliviousHistogram Z K A S V) : Except Panic (ObliviousHistogram Z K A S V) :=
  match h.autoResize with
  | some auto => do
    let auto ← auto.onTreeGrown math Z A h.height
    return { h with autoResize := some auto }
  | none => .ok h

def logGrown (h : ObliviousHistogram Z K A S V) : ObliviousHistogram Z K A S V :=
  h.log (.grown (h.autoResize.map AutoResizeState.window))

/-- The fill target is passed on and never read. -/
def applyAutoResizeGrow [Inhabited V] (h : ObliviousHistogram Z K A S V) (_fillTarget : Nat) :
    Except Panic (ObliviousHistogram Z K A S V) := do
  let h ← h.growPhysicalStorage
  let h ← h.onTreeGrown math
  return h.logGrown

def applyDeferredAutoResizeGrow [Inhabited V] (h : ObliviousHistogram Z K A S V) (fillTarget : Nat) :
    Except Panic (ObliviousHistogram Z K A S V) :=
  if (h.autoResize.map AutoResizeState.deferred).getD false then
    let h := { h with autoResize := h.autoResize.map AutoResizeState.resetCounters }
    h.applyAutoResizeGrow math fillTarget
  else .error (.assertion "deferred auto-resize growth should only be forced in deferred mode")

/-- `evaluate_signal` on the state of an auto-resizing tree, recorded. -/
def evaluateSignal (h : ObliviousHistogram Z K A S V) (auto : AutoResizeState) :
    Option Nat × ObliviousHistogram Z K A S V :=
  let (signal, next) := auto.evaluateSignal math Z
  (signal, { h with autoResize := some next }.log (.signal auto.cSum signal))

def checkAndMaybeResize [Inhabited V] (h : ObliviousHistogram Z K A S V) (auto : AutoResizeState) :
    Except Panic (ObliviousHistogram Z K A S V) :=
  let (signal, h) := h.evaluateSignal math auto
  match signal with
  | some fillTarget => h.applyAutoResizeGrow math fillTarget
  | none => .ok h

def accumulateResizeAccounting (h : ObliviousHistogram Z K A S V) (evictLeaf : TreeIndex) :
    ObliviousHistogram Z K A S V :=
  match h.autoResize with
  | some auto =>
    let count := h.stash.countMatchingBlocks h.height evictLeaf h.epoch
    let next := auto.recordEviction count
    { h with autoResize := some next }.log (.counted h.height evictLeaf h.epoch auto.cSum next.cSum)
  | none => h

def checkAndMaybeResizePostEviction [Inhabited V] (h : ObliviousHistogram Z K A S V) :
    Except Panic (ObliviousHistogram Z K A S V) :=
  match h.autoResize with
  | none => .ok h
  | some auto =>
    if !auto.shouldCheckEpoch then .ok h
    else if auto.deferred then
      let (growSignal, h) := h.evaluateSignal math auto
      .ok (if auto.emitsGrowSignal then
        { h with autoResize := h.autoResize.map fun auto => { auto with pendingGrow := growSignal } }
      else h)
    else h.checkAndMaybeResize math auto

end Resize

section Ops
variable [Add V] [Inhabited V]

def updatePeakOverflow (h : ObliviousHistogram Z K A S V) : ObliviousHistogram Z K A S V :=
  let cur := h.stash.occupancy
  if cur > h.peakOverflow then { h with peakOverflow := cur } else h

/-- `current_evict_interval` -/
def currentEvictInterval (h : ObliviousHistogram Z K A S V) : Nat :=
  let ordinary := A
  if h.evictCtr < h.sweepEnd then max (ordinary / 2) 1 else ordinary

/-- `u64::reverse_bits` -/
def reverseBits (x : UInt64) : UInt64 := .ofBitVec x.toBitVec.reverse

/-- The bit-reversed leaf of eviction number `evictCtr`. -/
def evictLeafAt (height evictCtr : Nat) : TreeIndex :=
  let numLeaves := leafCount height
  let raw := evictCtr % numLeaves
  let rev := (reverseBits (UInt64.ofNat raw)).toNat >>> (64 - height)
  leafCount height ||| rev

def nextEvictLeaf (h : ObliviousHistogram Z K A S V) : TreeIndex × ObliviousHistogram Z K A S V :=
  (evictLeafAt h.height h.evictCtr, { h with evictCtr := h.evictCtr + 1 })

/-- `read_from_path` on the histogram's own stash and memory. -/
def readPath (h : ObliviousHistogram Z K A S V) (leaf : TreeIndex) : ObliviousHistogram Z K A S V :=
  { h with stash := h.stash.readFromPath h.physicalMemory leaf }.log (.access leaf)

def mergePath (h : ObliviousHistogram Z K A S V) (leaf : TreeIndex) : ObliviousHistogram Z K A S V :=
  { h with stash := h.stash.mergeAccumulateForPath leaf }

def writePath (h : ObliviousHistogram Z K A S V) (leaf : TreeIndex) :
    Except Panic (ObliviousHistogram Z K A S V) := do
  let (stash, physicalMemory) ← h.stash.writeToPath h.physicalMemory leaf
  return { h with stash, physicalMemory }

/-- The sibling bucket is copied into scratch memory and never used. -/
def evictAfterInsert (math : ResizeMath) (h : ObliviousHistogram Z K A S V) :
    Except Panic (ObliviousHistogram Z K A S V) := do
  let (evictLeaf, h) := h.nextEvictLeaf
  let h := h.log (.evict evictLeaf)
  let h := h.readPath evictLeaf
  let h := if h.evictCtr ≤ h.sweepEnd then h.log (.sibling (evictLeaf ^^^ 1)) else h
  let h := h.mergePath evictLeaf
  let h := h.accumulateResizeAccounting evictLeaf
  let h ← h.writePath evictLeaf
  let h := h.updatePeakOverflow
  h.checkAndMaybeResizePostEviction math

def storedEvents (tag : UInt64) (epoch : UInt8) (payload : Vector UInt8 K) : List Event :=
  if tag ≠ 0 then [.stored payload.toList epoch] else []

def logStored (h : ObliviousHistogram Z K A S V) (tag : UInt64) (payload : Vector UInt8 K) :
    ObliviousHistogram Z K A S V :=
  { h with trace := storedEvents tag h.epoch payload ++ h.trace }

def finishAppendAfterInsert (math : ResizeMath) (h : ObliviousHistogram Z K A S V) :
    Except Panic (ObliviousHistogram Z K A S V) :=
  let h := { h with appendCtr := h.appendCtr + 1 }.log .slot
  let evictPeriod := h.currentEvictInterval
  if evictPeriod ∣ h.appendCtr then h.evictAfterInsert math else .ok h

def addPreparedInner (math : ResizeMath) (h : ObliviousHistogram Z K A S V) (key : UInt64) (val : V)
    (payload : Vector UInt8 K) : Except Panic (ObliviousHistogram Z K A S V) := do
  let stash ← h.stash.insert key h.epoch val payload
  ({ h with stash }.logStored key payload).finishAppendAfterInsert math

def append (math : ResizeMath) (h : ObliviousHistogram Z K A S V) (key : List UInt8) (val : V) :
    Except Panic (ObliviousHistogram Z K A S V) :=
  h.addPreparedInner math (prfTag h.prf key) val (copyPrefix K key)

/-- A prepared update: tag, value, payload and the condition byte. -/
abbrev PreparedUpdate (K : Nat) (V : Type) := UInt64 × V × Vector UInt8 K × UInt8

/-- What an insert slot records: the update it stores, if any, and the slot. -/
def slotEvents (epoch : UInt8) (u : PreparedUpdate K V) : List Event :=
  (if u.2.2.2 &&& 1 ≠ 0 then storedEvents u.1 epoch u.2.2.1 else []) ++ [.slot]

def logSlots (h : ObliviousHistogram Z K A S V) (updates : List (PreparedUpdate K V)) :
    ObliviousHistogram Z K A S V :=
  { h with trace := (updates.flatMap (slotEvents h.epoch)).reverse ++ h.trace }

/-- `chunk_len`: the slots up to the next eviction, or all that remain. -/
def chunkLen (h : ObliviousHistogram Z K A S V) (evictPeriod remaining : Nat) : Nat :=
  let intervalOffset := h.appendCtr % evictPeriod
  let untilEvict := if intervalOffset = 0 then evictPeriod else evictPeriod - intervalOffset
  min remaining untilEvict

omit [Add V] [Inhabited V] in
theorem chunkLen_pos (h : ObliviousHistogram Z K A S V) {evictPeriod remaining : Nat}
    (period : evictPeriod ≠ 0) (some : 0 < remaining) : 0 < h.chunkLen evictPeriod remaining := by
  have below := Nat.mod_lt h.appendCtr (Nat.pos_of_ne_zero period)
  rw [chunkLen]
  split <;> omega

/-- `while offset < count`: insert up to the next eviction, then evict if it is due. -/
def appendPreparedMaskedBatch (math : ResizeMath) (h : ObliviousHistogram Z K A S V)
    (updates : List (PreparedUpdate K V)) : Except Panic (ObliviousHistogram Z K A S V) :=
  if empty : updates = [] then .ok h
  else
    let evictPeriod := h.currentEvictInterval
    if period : evictPeriod = 0 then .error .arithmetic
    else
      let chunkLen := h.chunkLen evictPeriod updates.length
      have : updates.length - chunkLen < updates.length :=
        Nat.sub_lt (List.length_pos_iff.mpr empty)
          (h.chunkLen_pos period (List.length_pos_iff.mpr empty))
      let epoch := h.epoch
      do
        let stash ← h.stash.insertBatch ((updates.take chunkLen).map fun u =>
          (u.1, epoch, u.2.1, u.2.2.1, u.2.2.2))
        let h := { h with stash, appendCtr := h.appendCtr + chunkLen }.logSlots (updates.take chunkLen)
        let h ← if evictPeriod ∣ h.appendCtr then h.evictAfterInsert math else .ok h
        h.appendPreparedMaskedBatch math (updates.drop chunkLen)
  termination_by updates.length
  decreasing_by
    rw [List.length_drop]
    exact this

def readPreparedTotal (h : ObliviousHistogram Z K A S V) (tag : UInt64) (payload : Vector UInt8 K) :
    Except Panic (V × ObliviousHistogram Z K A S V) := do
  let leaf := toLeaf tag h.height
  let h := h.readPath leaf
  let h := h.mergePath leaf
  let (result, _, stash) := h.stash.readAndRemove payload
  let h ← ({ h with stash }.log (.removed payload.toList)).writePath leaf
  return (result, h.updatePeakOverflow)

def readTotal (h : ObliviousHistogram Z K A S V) (key : List UInt8) :
    Except Panic (V × ObliviousHistogram Z K A S V) :=
  h.readPreparedTotal (prfTag h.prf key) (copyPrefix K key)

/-- `draw` is what the generator returned; `random_range` keeps it below the leaf count. -/
def readDummy (h : ObliviousHistogram Z K A S V) (draw : Nat) :
    Except Panic (ObliviousHistogram Z K A S V) := do
  let leaf := leafCount h.height ||| draw % leafCount h.height
  let h := h.readPath leaf
  let h := h.mergePath leaf
  let h ← h.writePath leaf
  return h.updatePeakOverflow

/-- A no-op for the single tree. -/
def flush (h : ObliviousHistogram Z K A S V) : ObliviousHistogram Z K A S V := h

/-- `grow`: extend the tree, then rewrite every leaf path of the new height. -/
def grow (math : ResizeMath) (h : ObliviousHistogram Z K A S V) :
    Except Panic (ObliviousHistogram Z K A S V) := do
  let h ← h.growPhysicalStorage
  let h ← h.onTreeGrown math
  let h := h.logGrown
  let migratedLeaves := leafCount h.height
  (List.range migratedLeaves).foldlM (fun h i => do
    let newLeaf := migratedLeaves + i
    let h := h.readPath newLeaf
    let h := h.mergePath newLeaf
    h.writePath newLeaf) h

end Ops
end ObliviousHistogram
end Roga
