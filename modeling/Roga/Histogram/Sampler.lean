import Mathlib.Data.List.TakeWhile
import Roga.Histogram.AutoResize

/-! `sample_with` over any source of words. The latched flag counts the words before
the first one that fails, and the loop reads on to the last trial. -/
namespace Roga
open Ct
variable {σ : Type}

/-- `n` calls of the closure `next_word`: the words and the state of its captures. -/
def draws (nextWord : σ → UInt64 × σ) : Nat → σ → List UInt64 × σ
  | 0, source => ([], source)
  | n + 1, source =>
    let (word, source) := nextWord source
    let (words, source) := draws nextWord n source
    (word :: words, source)

/-- A fixed stream of words, read from a position on. -/
def streamWord (words : Nat → UInt64) (position : Nat) : UInt64 × Nat := (words position, position + 1)

/-- The stream with its first two blocks of `n` words exchanged. -/
def swapHalves (n : Nat) (words : Nat → UInt64) (i : Nat) : UInt64 :=
  if i < n then words (n + i) else if i < 2 * n then words (i - n) else words i

/-- The length of the longest prefix of words whose top 48 bits are below the cutoff. -/
def cappedRun (cutoff : UInt64) (words : List UInt64) : Nat :=
  (words.takeWhile fun word : UInt64 => decide (word >>> (64 - 48) < cutoff)).length

namespace CtDiscreteLaplace

/-- The loop of `geometric_with` over the remaining trials. -/
def geometricWithLoop (sampler : CtDiscreteLaplace) (nextWord : σ → UInt64 × σ) (active magnitude : UInt64)
    (source : σ) : Nat → UInt64 × σ
  | 0 => (magnitude, source)
  | trials + 1 =>
    let (word, source) := nextWord source
    let draw := word >>> (64 - 48)
    let active := active &&& (ctLt draw sampler.failureCutoff).toUInt64
    geometricWithLoop sampler nextWord active (magnitude + active) source trials

def geometricWith (sampler : CtDiscreteLaplace) (nextWord : σ → UInt64 × σ) (source : σ) : Int64 × σ :=
  let (magnitude, source) := sampler.geometricWithLoop nextWord 1 0 source sampler.trials
  (magnitude.toInt64, source)

def sampleWith (sampler : CtDiscreteLaplace) (nextWord : σ → UInt64 × σ) (source : σ) : Int64 × σ :=
  let (positive, source) := sampler.geometricWith nextWord source
  let (negative, source) := sampler.geometricWith nextWord source
  (positive - negative, source)

end CtDiscreteLaplace

section Draws
variable (nextWord : σ → UInt64 × σ)

theorem draws_streamWord (words : Nat → UInt64) (n position : Nat) :
    draws (streamWord words) n position = ((List.range n).map fun i => words (position + i), position + n) := by
  induction n generalizing position with
  | zero => rfl
  | succ n ih =>
    rw [draws, streamWord]
    simp only [ih, List.range_succ_eq_map, List.map_cons, List.map_map, Nat.add_zero, Prod.mk.injEq,
      List.cons.injEq, true_and]
    constructor
    · apply List.map_congr_left
      intro i _
      rw [Function.comp_apply, Nat.succ_eq_add_one, Nat.add_assoc, Nat.add_comm 1]
    · omega

/-- A source that reads another one draws its words. -/
theorem draws_comp {τ : Type} (outer : τ → UInt64 × τ) (read : σ → τ)
    (reads : ∀ source, outer (read source) = ((nextWord source).1, read (nextWord source).2)) (n : Nat) (source : σ) :
    draws outer n (read source) = ((draws nextWord n source).1, read (draws nextWord n source).2) := by
  induction n generalizing source with
  | zero => rfl
  | succ n ih =>
    rw [draws, reads]
    simp only [ih]
    rfl

end Draws

section Run
variable {cutoff : UInt64} {word : UInt64}

theorem cappedRun_cons_of_lt (below : word >>> (64 - 48) < cutoff) (words : List UInt64) :
    cappedRun cutoff (word :: words) = cappedRun cutoff words + 1 := by
  rw [cappedRun, List.takeWhile_cons_of_pos (by simpa using below), List.length_cons, cappedRun]

theorem cappedRun_cons_of_not_lt (above : ¬ word >>> (64 - 48) < cutoff) (words : List UInt64) :
    cappedRun cutoff (word :: words) = 0 := by
  rw [cappedRun, List.takeWhile_cons_of_neg (by simpa using above), List.length_nil]

theorem cappedRun_le (cutoff : UInt64) (words : List UInt64) : cappedRun cutoff words ≤ words.length :=
  (List.takeWhile_sublist (fun word : UInt64 => decide (word >>> (64 - 48) < cutoff))).length_le

/-- The words of the run are below the cutoff, and every longer prefix has one that is not. -/
theorem cappedRun_isGreatest (cutoff : UInt64) (words : List UInt64) :
    IsGreatest {n | n ≤ words.length ∧ ∀ word ∈ words.take n, word >>> (64 - 48) < cutoff}
      (cappedRun cutoff words) := by
  constructor
  · refine ⟨cappedRun_le cutoff words, ?_⟩
    intro word member
    rw [cappedRun, (List.prefix_iff_eq_take.mp (List.takeWhile_prefix _)).symm] at member
    have below := List.mem_takeWhile_imp member
    exact of_decide_eq_true below
  · rintro n ⟨inside, below⟩
    induction words generalizing n with
    | nil => exact inside
    | cons word words ih =>
      cases n with
      | zero => exact Nat.zero_le _
      | succ n =>
        rw [List.take_succ_cons, List.forall_mem_cons] at below
        rw [cappedRun_cons_of_lt below.1]
        exact Nat.succ_le_succ (ih (Nat.le_of_succ_le_succ inside) below.2)

end Run

namespace CtDiscreteLaplace
variable (sampler : CtDiscreteLaplace) (nextWord : σ → UInt64 × σ)

/-- Once a word fails the flag is down and the count stands still. -/
theorem geometricWithLoop_spec (active : Bool) (magnitude : UInt64) (n : Nat) (source : σ) :
    sampler.geometricWithLoop nextWord active.toUInt64 magnitude source n =
      (magnitude + if active then UInt64.ofNat (cappedRun sampler.failureCutoff (draws nextWord n source).1) else 0,
        (draws nextWord n source).2) := by
  induction n generalizing active magnitude source with
  | zero => cases active <;> simp [geometricWithLoop, draws, cappedRun]
  | succ n ih =>
    have latch : ∀ b : Bool, active.toUInt64 &&& b.toUInt8.toUInt64 = (active && b).toUInt64 := fun b => by
      cases active <;> cases b <;> rfl
    simp only [geometricWithLoop, draws, ctLt_spec, latch, ih, Prod.mk.injEq, and_true]
    by_cases below : (nextWord source).1 >>> (64 - 48) < sampler.failureCutoff
    · rw [cappedRun_cons_of_lt below, decide_eq_true below, Bool.and_true]
      cases active with
      | false => exact UInt64.add_zero _
      | true =>
        rw [if_pos rfl, if_pos rfl, UInt64.ofNat_add, UInt64.add_assoc, UInt64.add_comm (UInt64.ofNat _)]
        rfl
    · rw [cappedRun_cons_of_not_lt below, decide_eq_false below, Bool.and_false]
      cases active <;> exact UInt64.add_zero _

theorem geometricWith_spec (source : σ) :
    sampler.geometricWith nextWord source =
      (Int64.ofNat (cappedRun sampler.failureCutoff (draws nextWord sampler.trials source).1),
        (draws nextWord sampler.trials source).2) := by
  have loop := sampler.geometricWithLoop_spec nextWord true 0 sampler.trials source
  rw [if_pos rfl, UInt64.zero_add] at loop
  rw [geometricWith]
  change (let (magnitude, source) := sampler.geometricWithLoop nextWord true.toUInt64 0 source sampler.trials
    (magnitude.toInt64, source)) = _
  rw [loop]
  exact congrArg (·, _) UInt64.toInt64_ofNat'

/-- The two counts leave room for their difference. -/
theorem toInt_sub_of_small {m n : Nat} (hm : m < 2 ^ 63) (hn : n < 2 ^ 63) :
    (Int64.ofNat m - Int64.ofNat n).toInt = (m : Int) - n := by
  rw [Int64.toInt_sub, Int64.toInt_ofNat_of_lt hm, Int64.toInt_ofNat_of_lt hn]
  exact Int.bmod_eq_of_le (by omega) (by omega)

/-- On a stream the two counts read adjacent blocks of words. -/
theorem sampleWith_streamWord (words : Nat → UInt64) (position : Nat) :
    sampler.sampleWith (streamWord words) position =
      (Int64.ofNat (cappedRun sampler.failureCutoff
          ((List.range sampler.trials).map fun i => words (position + i))) -
        Int64.ofNat (cappedRun sampler.failureCutoff
          ((List.range sampler.trials).map fun i => words (position + sampler.trials + i))),
        position + 2 * sampler.trials) := by
  rw [sampleWith]
  simp only [geometricWith_spec, draws_streamWord, Prod.mk.injEq, true_and]
  omega

theorem geometricLoop_eq (math : ResizeMath) (active magnitude : UInt64) (rng : AutoResizeRng) (n : Nat) :
    sampler.geometricLoop math active magnitude rng n =
      sampler.geometricWithLoop (AutoResizeRng.nextWord math) active magnitude rng n := by
  induction n generalizing active magnitude rng with
  | zero => rfl
  | succ n ih => exact ih _ _ _

/-- The sampler of a tree reads the word stream of its seed from the current position on. -/
theorem sample_eq_sampleWith (math : ResizeMath) (rng : AutoResizeRng) :
    sampler.sample math rng =
      ((sampler.sampleWith (streamWord (math.word rng.seed)) rng.drawn).1,
        { rng with drawn := rng.drawn + 2 * sampler.trials }) := by
  have geometric : ∀ rng, sampler.geometric math rng = sampler.geometricWith (AutoResizeRng.nextWord math) rng :=
    fun rng => by rw [CtDiscreteLaplace.geometric, geometricLoop_eq, geometricWith]
  have stream : ∀ n position, draws (AutoResizeRng.nextWord math) n { rng with drawn := position } =
      ((List.range n).map fun i => math.word rng.seed (position + i), { rng with drawn := position + n }) := by
    intro n position
    have reads := draws_comp (streamWord (math.word rng.seed)) (AutoResizeRng.nextWord math)
      (fun position => { rng with drawn := position }) (fun _ => rfl) n position
    rw [reads, draws_streamWord]
  rw [CtDiscreteLaplace.sample, sampleWith_streamWord]
  simp only [geometric, geometricWith_spec]
  rw [stream sampler.trials rng.drawn]
  simp only [stream, Nat.two_mul, Nat.add_assoc]

end CtDiscreteLaplace

/-- A sample reads `2 * trials` words and is the difference of two capped runs, without
wrapping around; exchanging the halves of the stream negates it. -/
theorem sample_with_is_difference_of_runs (sampler : CtDiscreteLaplace) (fits : sampler.trials < 2 ^ 63)
    (words : Nat → UInt64) :
    let trials := sampler.trials
    let first := cappedRun sampler.failureCutoff ((List.range trials).map words)
    let second := cappedRun sampler.failureCutoff ((List.range trials).map fun i => words (trials + i))
    let sample := sampler.sampleWith (streamWord words) 0
    sample.2 = 2 * trials ∧ sample.1.toInt = (first : Int) - second ∧
    (sampler.sampleWith (streamWord (swapHalves trials words)) 0).1 = -sample.1 ∧
    -(trials : Int) ≤ sample.1.toInt ∧ sample.1.toInt ≤ trials := by
  intro trials first second sample
  have run : sample = (Int64.ofNat first - Int64.ofNat second, 2 * trials) := by
    have stream := sampler.sampleWith_streamWord words 0
    simpa only [Nat.zero_add] using stream
  have swapped : (sampler.sampleWith (streamWord (swapHalves trials words)) 0).1 =
      Int64.ofNat second - Int64.ofNat first := by
    have front : (List.range trials).map (swapHalves trials words) =
        (List.range trials).map fun i => words (trials + i) := by
      apply List.map_congr_left
      intro i hi
      rw [swapHalves, if_pos (List.mem_range.mp hi)]
    have back : ((List.range trials).map fun i => swapHalves trials words (trials + i)) =
        (List.range trials).map words := by
      apply List.map_congr_left
      intro i hi
      have inside := List.mem_range.mp hi
      rw [swapHalves, if_neg (by omega), if_pos (by omega), Nat.add_sub_cancel_left]
    have stream := sampler.sampleWith_streamWord (swapHalves trials words) 0
    simp only [Nat.zero_add] at stream
    rw [stream]
    change Int64.ofNat (cappedRun _ ((List.range trials).map (swapHalves trials words))) -
      Int64.ofNat (cappedRun _ ((List.range trials).map fun i => swapHalves trials words (trials + i))) = _
    rw [front, back]
  have left : first ≤ trials := (cappedRun_le _ _).trans_eq (by rw [List.length_map, List.length_range])
  have right : second ≤ trials := (cappedRun_le _ _).trans_eq (by rw [List.length_map, List.length_range])
  have value : sample.1.toInt = (first : Int) - second := by
    rw [run]
    exact CtDiscreteLaplace.toInt_sub_of_small (left.trans_lt fits) (right.trans_lt fits)
  refine ⟨congrArg Prod.snd run, value, ?_, ?_, ?_⟩
  · rw [swapped, run, Int64.neg_sub]
  · omega
  · omega

theorem sample_with_is_difference_of_runs_three :
    let sample := CtDiscreteLaplace.sampleWith { failureCutoff := 2 ^ 47, trials := 3 }
      (streamWord fun i => i.toUInt64 <<< 62) 0
    sample.2 = 6 ∧ sample.1.toInt = 2 := by
  have runs := sample_with_is_difference_of_runs { failureCutoff := 2 ^ 47, trials := 3 } (by decide)
    fun i => i.toUInt64 <<< 62
  exact ⟨runs.1, runs.2.1.trans (by decide)⟩

end Roga
