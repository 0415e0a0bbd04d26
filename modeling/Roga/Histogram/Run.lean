import Roga.Histogram.Ops

/-! Runs of a single tree. -/
namespace Roga
variable {Z K A S : Nat} {V : Type}

/-- The operations of a tree with their arguments. -/
inductive TreeOp (K : Nat) (V : Type)
  | append (key : List UInt8) (val : V)
  | appendBatch (updates : List (ObliviousHistogram.PreparedUpdate K V))
  | readTotal (key : List UInt8)
  | readDummy (draw : Nat)
  | flush
  | grow
  | enableAutoResize (cfg : AutoResizeConfig)
  | enableDeferredAutoResize (cfg : AutoResizeConfig) (emitsGrowSignal : Bool)
  | takeDeferredSignal
  | applyDeferredGrow (fillTarget : Nat)
  | handleDeferredResize

namespace ObliviousHistogram
variable [Add V] [Inhabited V] (math : ResizeMath)

/-- The signal of a deferred check, taken and applied at once. -/
def handleDeferredResize (h : ObliviousHistogram Z K A S V) : Except Panic (ObliviousHistogram Z K A S V) := do
  let (growSignal, h) ← h.takeDeferredAutoResizeSignal
  match growSignal with
  | some target => h.applyDeferredAutoResizeGrow math target
  | none => return h

/-- One operation, with the value it returns if it is a read. -/
def step (h : ObliviousHistogram Z K A S V) :
    TreeOp K V → Except Panic (Option V × ObliviousHistogram Z K A S V)
  | .append key val => do return (none, ← h.append math key val)
  | .appendBatch updates => do return (none, ← h.appendPreparedMaskedBatch math updates)
  | .readTotal key => do
    let (v, h) ← h.readTotal key
    return (some v, h)
  | .readDummy draw => do return (none, ← h.readDummy draw)
  | .flush => .ok (none, h.flush)
  | .grow => do return (none, ← h.grow math)
  | .enableAutoResize cfg => do return (none, ← h.enableAutoResize math cfg)
  | .enableDeferredAutoResize cfg emits => do
    return (none, ← h.enableDeferredAutoResize math cfg emits)
  | .takeDeferredSignal => do
    let (_, h) ← h.takeDeferredAutoResizeSignal
    return (none, h)
  | .applyDeferredGrow target => do return (none, ← h.applyDeferredAutoResizeGrow math target)
  | .handleDeferredResize => do return (none, ← h.handleDeferredResize math)

/-- A run that does not panic, with what its operations returned. -/
def run (h : ObliviousHistogram Z K A S V) :
    List (TreeOp K V) → Except Panic (List (Option V) × ObliviousHistogram Z K A S V)
  | [] => .ok ([], h)
  | op :: ops => do
    let (out, h) ← h.step math op
    let (outs, h) ← h.run ops
    return (out :: outs, h)

/-- A run of a new tree. -/
def runNew (cap : Nat) (prf : Aes128) (ops : List (TreeOp K V)) :
    Except Panic (List (Option V) × ObliviousHistogram Z K A S V) := do
  let h ← new cap prf
  h.run math ops

end ObliviousHistogram

/-! The purpose of the structure: a map from keys to the values appended since
they were last read. -/

/-- The sum of a list of values, the default when there are none. -/
def total [Add V] [Inhabited V] : List V → V
  | [] => default
  | v :: vs => vs.foldl (· + ·) v

/-- What an operation does to the map, and the total a read returns. -/
def TreeOp.onTotals [Add V] [Inhabited V] (appended : List UInt8 → List V) :
    TreeOp K V → Option V × (List UInt8 → List V)
  | .append key val => (none, Function.update appended key (appended key ++ [val]))
  | .readTotal key => (some (total (appended key)), Function.update appended key [])
  | _ => (none, appended)

def totalsRun [Add V] [Inhabited V] (appended : List UInt8 → List V) : List (TreeOp K V) → List (Option V)
  | [] => []
  | op :: ops => (op.onTotals appended).1 :: totalsRun (op.onTotals appended).2 ops

/-- An operation that names keys of `keys` only. -/
def TreeOp.Over (keys : List UInt8 → Prop) : TreeOp K V → Prop
  | .append key _ => keys key
  | .readTotal key => keys key
  | .appendBatch _ => False
  | _ => True

/-- Keys whose truncations differ and whose tags are real and differ off bit 31. -/
structure Separated (prf : Aes128) (K : Nat) (keys : List UInt8 → Prop) : Prop where
  prefix_inj : ∀ k k', keys k → keys k' → copyPrefix K k = copyPrefix K k' → k = k'
  tag_ne_zero : ∀ k, keys k → prfTag prf k ≠ 0
  tag_inj : ∀ k k', keys k → keys k' →
    identityBits (prfTag prf k) = identityBits (prfTag prf k') → k = k'

/-- The tags and payloads of the real blocks an operation inserts. -/
def TreeOp.inserts (prf : Aes128) : TreeOp K V → List (UInt64 × Vector UInt8 K)
  | .append key _ => [(prfTag prf key, copyPrefix K key)].filter fun id => id.1 ≠ 0
  | .appendBatch updates =>
    ((updates.filter fun u => u.2.2.2 &&& 1 ≠ 0).map fun u => (u.1, u.2.2.1)).filter fun id => id.1 ≠ 0
  | _ => []

end Roga
