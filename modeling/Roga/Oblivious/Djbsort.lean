import Roga.Oblivious.Ct

/-! The key-payload sorting network of `djbsort.rs`. `sort_by` and
`sort_with_payload` run the same loops over different slot operations, so the
loops take the operations as a parameter. -/
namespace Roga.Djbsort
open Ct

/-- The slot operations of one network run. `spin` marks the inner loop with
`q = 0` or `j` past its block, which the source would never leave. -/
structure SlotOps (σ : Type) where
  minmax : Nat → Nat → σ → σ
  cascade : Nat → Nat → Nat → σ → σ
  spin : σ → σ

section Loops
variable {σ : Type} (ops : SlotOps σ)

/-- `while top < n - top { top += top }` -/
def doubleTop (n top : Nat) : Nat :=
  if 0 < top ∧ top < n - top then doubleTop n (top + top) else top
  termination_by n - top

/-- `while i + 2 * p <= n`, with its inner loop over `k < p`. -/
def minmaxBlocks (n p i : Nat) (s : σ) : Nat × σ :=
  if 0 < p ∧ i + 2 * p ≤ n then
    minmaxBlocks n p (i + 2 * p)
      ((List.range p).foldl (fun s k => ops.minmax (i + k) (i + k + p) s) s)
  else (i, s)
  termination_by n - i

/-- `while j + p < n` -/
def minmaxTail (n p j : Nat) (s : σ) : σ :=
  if j + p < n then minmaxTail n p (j + 1) (ops.minmax j (j + p) s) else s
  termination_by n - j

/-- The inner `loop` that finishes a partial block, halving `q` in place. -/
def finishBlock (n p i j q : Nat) (s : σ) : Nat × Nat × Nat × σ :=
  if j + q = n then
    if q = 0 then (i, j, q, ops.spin s) else finishBlock n p i j (q / 2) s
  else
    let s := ops.cascade j p q s
    if j + 1 = i + p then (i + 2 * p, j + 1, q, s)
    else if j + 1 < i + p then finishBlock n p i (j + 1) q s
    else (i, j + 1, q, ops.spin s)
  termination_by (i + p - j, q)
  decreasing_by
  · exact Prod.Lex.right _ (Nat.div_lt_self (by omega) (by decide))
  · exact Prod.Lex.left _ _ (by omega)

/-- `while i + p + q <= n`, with its inner loop over `k < p`. -/
def cascadeBlocks (n p i q : Nat) (s : σ) : Nat × σ :=
  if 0 < p ∧ i + p + q ≤ n then
    cascadeBlocks n p (i + 2 * p) q
      ((List.range p).foldl (fun s k => ops.cascade (i + k) p q s) s)
  else (i, s)
  termination_by n - i

/-- `while j + q < n` -/
def cascadeTail (n p j q : Nat) (s : σ) : Nat × σ :=
  if j + q < n then cascadeTail n p (j + 1) q (ops.cascade j p q s) else (j, s)
  termination_by n - j

theorem finishBlock_q_le (n p i j q : Nat) (s : σ) : (finishBlock ops n p i j q s).2.2.1 ≤ q := by
  fun_induction finishBlock ops n p i j q s with
  | case1 => simp_all
  | case2 j q s h hq ih => exact ih.trans (Nat.div_le_self q 2)
  | case3 => simp
  | case4 j q s h₁ s' h₂ h₃ ih => exact ih
  | case5 => simp

/-- `while q > p`: finish the open block, run full blocks, then the tail. -/
def qLoop (n p i j q : Nat) (s : σ) : σ :=
  if p < q then
    if j ≠ i then
      let r := finishBlock ops n p i j q s
      if r.2.2.1 ≤ p then r.2.2.2
      else
        let blocks := cascadeBlocks ops n p r.1 r.2.2.1 r.2.2.2
        let tail := cascadeTail ops n p blocks.1 r.2.2.1 blocks.2
        qLoop n p blocks.1 tail.1 (r.2.2.1 / 2) tail.2
    else
      let blocks := cascadeBlocks ops n p i q s
      let tail := cascadeTail ops n p blocks.1 q blocks.2
      qLoop n p blocks.1 tail.1 (q / 2) tail.2
  else s
  termination_by q
  decreasing_by
  · have := finishBlock_q_le ops n p i j q s
    have : r.2.2.1 ≤ q := this
    omega
  · exact Nat.div_lt_self (by omega) (by decide)

/-- `while p >= 1`, one pass per halving of `top`. -/
def pLoop (n top p : Nat) (s : σ) : σ :=
  if 1 ≤ p then
    let blocks := minmaxBlocks ops n p 0 s
    let s := minmaxTail ops n p blocks.1 blocks.2
    pLoop n top (p / 2) (qLoop ops n p 0 0 top s)
  else s
  termination_by p
  decreasing_by exact Nat.div_lt_self (by omega) (by decide)

def network (n : Nat) (s : σ) : σ :=
  if n < 2 then s
  else
    let top := doubleTop n 1
    pLoop ops n top top s

end Loops

section SortBy
variable {P : Type} (greater : P → P → UInt8)

def minmaxByRaw (i j : Nat) (payloads : List P) : List P :=
  match payloads[i]?, payloads[j]? with
  | some a, some b => cswapFast payloads i j (greater a b != 0)
  | _, _ => payloads

/-- `while r > p` of `cascade_by_raw`, with the register `a`. -/
def cascadeByLoop (j p r : Nat) (a : P) (payloads : List P) : P × List P :=
  if p < r then
    match payloads[j + r]? with
    | some b =>
      if greater a b != 0 then cascadeByLoop j p (r / 2) b (payloads.set (j + r) a)
      else cascadeByLoop j p (r / 2) a payloads
    | none => cascadeByLoop j p (r / 2) a payloads
  else (a, payloads)
  termination_by r
  decreasing_by all_goals exact Nat.div_lt_self (by omega) (by decide)

def cascadeByRaw (j p q : Nat) (payloads : List P) : List P :=
  match payloads[j + p]? with
  | some a =>
    let r := cascadeByLoop greater j p q a payloads
    r.2.set (j + p) r.1
  | none => payloads

def byOps : SlotOps (List P) where
  minmax := minmaxByRaw greater
  cascade := cascadeByRaw greater
  spin := id

def sortBy (payloads : List P) (greater : P → P → UInt8) : List P :=
  network (byOps greater) payloads.length payloads

end SortBy

section SortWithPayload
variable {P : Type}

def minmaxWithPayloadRaw (i j : Nat) (s : List UInt64 × List P) : List UInt64 × List P :=
  match s.1[i]?, s.1[j]? with
  | some a, some b => (cswapFast s.1 i j (a > b), cswapFast s.2 i j (a > b))
  | _, _ => s

def cascadeWithPayloadLoop (j p r : Nat) (aKey : UInt64) (aPay : P) (s : List UInt64 × List P) :
    UInt64 × P × List UInt64 × List P :=
  if p < r then
    match s.1[j + r]?, s.2[j + r]? with
    | some bKey, some bPay =>
      if aKey > bKey then
        cascadeWithPayloadLoop j p (r / 2) bKey bPay (s.1.set (j + r) aKey, s.2.set (j + r) aPay)
      else cascadeWithPayloadLoop j p (r / 2) aKey aPay s
    | _, _ => cascadeWithPayloadLoop j p (r / 2) aKey aPay s
  else (aKey, aPay, s)
  termination_by r
  decreasing_by all_goals exact Nat.div_lt_self (by omega) (by decide)

def cascadeWithPayloadRaw (j p q : Nat) (s : List UInt64 × List P) : List UInt64 × List P :=
  match s.1[j + p]?, s.2[j + p]? with
  | some aKey, some aPay =>
    let r := cascadeWithPayloadLoop j p q aKey aPay s
    (r.2.2.1.set (j + p) r.1, r.2.2.2.set (j + p) r.2.1)
  | _, _ => s

def withPayloadOps : SlotOps (List UInt64 × List P) where
  minmax := minmaxWithPayloadRaw
  cascade := cascadeWithPayloadRaw
  spin := id

/-- Both slices have the length of `keys`, as the source asserts. -/
def sortWithPayload (keys : List UInt64) (payloads : List P) : List UInt64 × List P :=
  network withPayloadOps keys.length (keys, payloads)

end SortWithPayload

section Merge
variable {P : Type} (greater : P → P → UInt8)

def concatWire (firstStart firstStride firstLen secondStart secondStride index : Nat) : Nat :=
  if index < firstLen then firstStart + index * firstStride
  else secondStart + (index - firstLen) * secondStride

def oddEvenMergeByRaw (firstStart firstStride firstLen secondStart secondStride secondLen : Nat)
    (payloads : List P) : List P :=
  if firstLen = 0 ∨ secondLen = 0 then payloads
  else if firstLen = 1 ∧ secondLen = 1 then minmaxByRaw greater firstStart secondStart payloads
  else
    let firstOddLen := (firstLen + 1) / 2
    let secondOddLen := (secondLen + 1) / 2
    let firstEvenLen := firstLen / 2
    let secondEvenLen := secondLen / 2
    let payloads := oddEvenMergeByRaw firstStart (firstStride * 2) firstOddLen
      secondStart (secondStride * 2) secondOddLen payloads
    let payloads := oddEvenMergeByRaw (firstStart + firstStride) (firstStride * 2) firstEvenLen
      (secondStart + secondStride) (secondStride * 2) secondEvenLen payloads
    let oddLen := firstOddLen + secondOddLen
    let evenLen := firstEvenLen + secondEvenLen
    (List.range (min evenLen (oddLen - 1))).foldl (fun payloads i =>
      let evenWire := concatWire (firstStart + firstStride) (firstStride * 2) firstEvenLen
        (secondStart + secondStride) (secondStride * 2) i
      let nextOddWire := concatWire firstStart (firstStride * 2) firstOddLen
        secondStart (secondStride * 2) (i + 1)
      minmaxByRaw greater evenWire nextOddWire payloads) payloads
  termination_by firstLen + secondLen
  decreasing_by all_goals omega

/-- The run lengths are powers of two with the first at least as long, as the
source asserts. -/
def mergeSortedBy (payloads : List P) (split : Nat) (greater : P → P → UInt8) : List P :=
  let secondLen := payloads.length - split
  if split = 0 ∨ secondLen = 0 then payloads
  else oddEvenMergeByRaw greater 0 1 split split 1 secondLen payloads

end Merge
end Roga.Djbsort
