import Roga.Oblivious.Djbsort
import Roga.Oblivious.Reduction

/-! Oblivious compaction and distribution of `compaction.rs`. A slice that the
source splits in place is split and joined again here. -/
namespace Roga
open Ct
variable {T : Type}

/-- `for i in 0..count { cswap_fast(arr, i, offset + i, choice) }` -/
def swapColumns (count offset : Nat) (choice : Nat → Bool) (arr : List T) : List T :=
  (List.range count).foldl (fun arr i => cswapFast arr i (offset + i) (choice i)) arr

@[simp] theorem cswapFast_length (arr : List T) (i j : Nat) (choice : Bool) :
    (cswapFast arr i j choice).length = arr.length := by
  unfold cswapFast
  split
  · split <;> simp
  · rfl

@[simp] theorem swapColumns_length (count offset : Nat) (choice : Nat → Bool) (arr : List T) :
    (swapColumns count offset choice arr).length = arr.length :=
  List.foldlRecOn (motive := fun ys : List T => ys.length = arr.length) _ _ rfl
    fun ys hys _ _ => (cswapFast_length ys _ _ _).trans hys

/-- `((!m) & d) != z` on words -/
def swapPair (payload : List Nat) (z : Nat) : Bool :=
  let m := UInt64.ofNat (payload.getD 1 0 - payload.getD 0 0)
  ((~~~m) &&& UInt64.ofNat (payload.getD 2 0 - payload.getD 1 0)) != UInt64.ofNat z

/-- Lengths are powers of two from two upwards, so the first branch is not reached. -/
def compactPow2 (arr : List T) (payload : List Nat) (z : Nat) : List T :=
  let n := arr.length
  if n < 2 then arr
  else if n = 2 then cswapFast arr 0 1 (swapPair payload z)
  else
    let half := n / 2
    let m := payload.getD half 0 - payload.getD 0 0
    let zleft := z &&& (half - 1)
    let zright := (z + m) &&& (half - 1)
    let left := compactPow2 (arr.take half) (payload.take (half + 1)) zleft
    let right := compactPow2 (arr.drop half) (payload.drop half) zright
    let s := decide (zleft + m ≥ half) ^^ decide (z ≥ half)
    swapColumns half half (fun i => s ^^ decide (i ≥ zright)) (left ++ right)
  termination_by arr.length
  decreasing_by
  · rw [List.length_take]; omega
  · rw [List.length_drop]; omega

def compactPayload (arr : List T) (payload : List Nat) : List T :=
  let n := arr.length
  if n ≤ 1 then arr
  else
    let n1 := 2 ^ Nat.log2 n
    let n2 := n - n1
    if n2 = 0 then compactPow2 arr payload 0
    else
      let m := payload.getD n2 0 - payload.getD 0 0
      let left := compactPayload (arr.take n2) (payload.take (n2 + 1))
      let right := compactPow2 (arr.drop n2) (payload.drop n2) ((n1 - n2 + m) % n1)
      swapColumns n2 n1 (fun i => decide (i ≥ m)) (left ++ right)
  termination_by arr.length
  decreasing_by
    have := Nat.two_pow_pos (Nat.log2 arr.length)
    rw [List.length_take]
    omega

def distributePow2 (arr : List T) (payload : List Nat) (z : Nat) : List T :=
  let n := arr.length
  if n < 2 then arr
  else if n = 2 then cswapFast arr 0 1 (swapPair payload z)
  else
    let half := n / 2
    let m := payload.getD half 0 - payload.getD 0 0
    let zleft := z &&& (half - 1)
    let zright := (z + m) &&& (half - 1)
    let s := decide (zleft + m ≥ half) ^^ decide (z ≥ half)
    let swapped := swapColumns half half (fun i => s ^^ decide (i ≥ zright)) arr
    distributePow2 (swapped.take half) (payload.take (half + 1)) zleft ++
      distributePow2 (swapped.drop half) (payload.drop half) zright
  termination_by arr.length
  decreasing_by
  · rw [List.length_take, swapColumns_length]; omega
  · rw [List.length_drop, swapColumns_length]; omega

def distributePayload (arr : List T) (payload : List Nat) : List T :=
  let n := arr.length
  if n ≤ 1 then arr
  else
    let n1 := 2 ^ Nat.log2 n
    let n2 := n - n1
    if n2 = 0 then distributePow2 arr payload 0
    else
      let m := payload.getD n2 0 - payload.getD 0 0
      let swapped := swapColumns n2 n1 (fun i => decide (i ≥ m)) arr
      distributePayload (swapped.take n2) (payload.take (n2 + 1)) ++
        distributePow2 (swapped.drop n2) (payload.drop n2) ((n1 - n2 + m) % n1)
  termination_by arr.length
  decreasing_by
    have := Nat.two_pow_pos (Nat.log2 arr.length)
    rw [List.length_take, swapColumns_length]
    omega

/-- Running sums of condition bytes, one after each. -/
def runningMarks (sum : Nat) : List UInt8 → List Nat
  | [] => []
  | flag :: flags => (sum + flag.toNat) :: runningMarks (sum + flag.toNat) flags

variable {K : Nat} {V : Type}

def compactMarks (records : List (OramBlock K V)) : List Nat :=
  0 :: runningMarks 0 (records.map OramBlock.ctIsReal)

section SortReduce
variable [Add V] [Inhabited V]

def sortReduce (blocks : List (OramBlock K V)) (keyOf : OramBlock K V → UInt64) :
    List (OramBlock K V) :=
  let sortKeys := blocks.map keyOf
  let sorted := Djbsort.sortWithPayload sortKeys blocks
  reduceEqualRuns sorted.2

/-- `conditional_dummy` past the first `reducedLen` slots. -/
def dummyPast (reducedLen : Nat) (blocks : List (OramBlock K V)) : List (OramBlock K V) :=
  blocks.mapIdx fun i block => block.conditionalDummy (ctNot (ctLtCount i reducedLen))

/-- The surviving blocks with the number of real ones. -/
def sortReduceCompact (blocks : List (OramBlock K V)) (keyOf : OramBlock K V → UInt64) :
    List (OramBlock K V) × Nat :=
  let n := blocks.length
  let blocks := sortReduce blocks keyOf
  let marks := compactMarks blocks
  let reducedLen := marks.getD n 0
  let blocks := compactPayload blocks marks
  (dummyPast reducedLen blocks, reducedLen)

end SortReduce
end Roga
