import Roga.Histogram.Stash

/-! The differentially private resize decision of `resize.rs`. The floating
point formulas, the ChaCha20 word stream and the constructor of the sampler
are parameters. -/
namespace Roga
open Ct

def saturatingMul (a b : Nat) : Nat := min (a * b) (2 ^ 64 - 1)

/-- `seed_from_u64` fixes the word stream; a generator is its position in it. -/
structure AutoResizeRng where
  seed : UInt64
  drawn : Nat
deriving DecidableEq

structure CtDiscreteLaplace where
  failureCutoff : UInt64
  trials : Nat
deriving DecidableEq

structure AutoResizeConfig where
  tCapacity : Nat
  eps : Float
  alpha : Float
  seed : UInt64

/-- Code outside the model: the ChaCha20 stream of a seed, and the results of
the `f64` formulas. -/
structure ResizeMath where
  word : UInt64 → Nat → UInt64
  newSampler : Float → Except Panic CtDiscreteLaplace
  /-- `raw.floor() as u64` in `dp_initial_k`, from the capacity, the leaf count and the interval. -/
  rawK : Nat → Nat → Nat → Nat
  /-- `deterministic_units` of `dp_epoch_units`, from t, l, k, alpha and a. -/
  deterministicUnits : Nat → Nat → Nat → Float → Nat → Int64
  /-- `probability.is_finite() && probability > 0.0 && probability < 0.5` -/
  inTailRange : Float → Bool
  /-- What `upper_quantile` returns past its assertion. -/
  quantile : CtDiscreteLaplace → Float → Int64
  /-- `(2.0 * alpha).powi(RESIZE_ATTEMPTS)` -/
  attemptsTail : Float → Float

variable (math : ResizeMath)

def ResizeMath.upperQuantile (sampler : CtDiscreteLaplace) (probability : Float) : Except Panic Int64 :=
  if math.inTailRange probability then .ok (math.quantile sampler probability)
  else .error (.assertion "tail probability must be finite and in (0, 0.5)")

/-- `rng.random::<u64>()` -/
def AutoResizeRng.nextWord (rng : AutoResizeRng) : UInt64 × AutoResizeRng :=
  (math.word rng.seed rng.drawn, { rng with drawn := rng.drawn + 1 })

namespace CtDiscreteLaplace

/-- The loop over the remaining trials, with `active` and `magnitude`. -/
def geometricLoop (sampler : CtDiscreteLaplace) (active magnitude : UInt64) (rng : AutoResizeRng) :
    Nat → UInt64 × AutoResizeRng
  | 0 => (magnitude, rng)
  | trials + 1 =>
    let (word, rng) := rng.nextWord math
    let draw := word >>> (64 - 48)
    let active := active &&& (ctLt draw sampler.failureCutoff).toUInt64
    geometricLoop sampler active (magnitude + active) rng trials

def geometric (sampler : CtDiscreteLaplace) (rng : AutoResizeRng) : Int64 × AutoResizeRng :=
  let (magnitude, rng) := sampler.geometricLoop math 1 0 rng sampler.trials
  (magnitude.toInt64, rng)

def sample (sampler : CtDiscreteLaplace) (rng : AutoResizeRng) : Int64 × AutoResizeRng :=
  let (positive, rng) := sampler.geometric math rng
  let (negative, rng) := sampler.geometric math rng
  (positive - negative, rng)

end CtDiscreteLaplace

structure AutoResizeState where
  config : AutoResizeConfig
  k : Nat
  tHatUnits : Int64
  evictionsSinceCheck : Nat
  cSum : Nat
  totalResizes : Nat
  deferred : Bool
  emitsGrowSignal : Bool
  pendingGrow : Option Nat
  sampler : CtDiscreteLaplace
  rng : AutoResizeRng

def dpInitialK (tCapacity l a : Nat) : Nat := min (max (math.rawK tCapacity l a) 1) l

def effectiveTCapacity (Z tCapacity : Nat) : Nat := saturatingMul tCapacity (max (Z / 4) 1)

def dpEpochUnits (tCapacity l k : Nat) (alpha : Float) (a : Nat) (sampler : CtDiscreteLaplace)
    (rng : AutoResizeRng) : Except Panic (Int64 × AutoResizeRng) := do
  let deterministicUnits := math.deterministicUnits tCapacity l k alpha a
  let estimatorZetaUnits ← math.upperQuantile sampler alpha
  let attemptsZetaUnits ← math.upperQuantile sampler (math.attemptsTail alpha)
  let (thetaUnits, rng) := sampler.sample math rng
  return (deterministicUnits + thetaUnits - estimatorZetaUnits - attemptsZetaUnits, rng)

namespace AutoResizeState

/-- The part of the state that a check reads and resets. -/
def window (auto : AutoResizeState) : Nat × Nat × Option Nat :=
  (auto.cSum, auto.evictionsSinceCheck, auto.pendingGrow)

def recordEviction (auto : AutoResizeState) (matchingBlocks : Nat) : AutoResizeState :=
  { auto with
    cSum := auto.cSum + matchingBlocks
    evictionsSinceCheck := auto.evictionsSinceCheck + 1 }

def shouldCheckEpoch (auto : AutoResizeState) : Bool :=
  (!auto.emitsGrowSignal || auto.pendingGrow.isNone) && decide (auto.evictionsSinceCheck ≥ auto.k)

def evaluateSignal (Z : Nat) (auto : AutoResizeState) : Option Nat × AutoResizeState :=
  let effectiveT := effectiveTCapacity Z auto.config.tCapacity
  let (eta, rng) := auto.sampler.sample math auto.rng
  let noisyEstimateUnits : Int := auto.cSum + eta.toInt
  let doGrow := decide (noisyEstimateUnits > auto.tHatUnits.toInt)
  (if doGrow then some effectiveT else none, { auto with rng, cSum := 0, evictionsSinceCheck := 0 })

def resetCounters (auto : AutoResizeState) : AutoResizeState :=
  { auto with cSum := 0, evictionsSinceCheck := 0, pendingGrow := none }

def onTreeGrown (Z A : Nat) (auto : AutoResizeState) (newHeight : Nat) : Except Panic AutoResizeState := do
  let config := { auto.config with tCapacity := saturatingMul auto.config.tCapacity 2 }
  let lNew := leafCount newHeight
  let effectiveT := effectiveTCapacity Z config.tCapacity
  let k := dpInitialK math effectiveT lNew A
  let (tHatUnits, rng) ← dpEpochUnits math effectiveT lNew k config.alpha A auto.sampler auto.rng
  return { auto with config, k, tHatUnits, rng, totalResizes := auto.totalResizes + 1 }

end AutoResizeState

end Roga
