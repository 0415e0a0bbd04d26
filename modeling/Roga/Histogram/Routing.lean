import Mathlib.Data.Nat.Bitwise
import Mathlib.Data.Nat.Size
import Mathlib.Tactic
import Roga.Oblivious.Ct

/-! Tag routing of `routing.rs` and the index arithmetic of `tree.rs`. Tags
are 64-bit words; tree indices and heights are numbers. -/
namespace Roga
open Ct

/-- One-based index into the complete binary tree, root 1. -/
abbrev TreeIndex := Nat

def maxTreeHeight : Nat := 31

def realAddrMarker : UInt64 := (1 : UInt64) <<< 31

def routingBitsMask : UInt64 := realAddrMarker - 1

def addressToLeaf (addr : UInt64) (height : Nat) : TreeIndex :=
  ((addr &&& routingBitsMask) ||| realAddrMarker).toNat >>> (maxTreeHeight - height)

def ctIsReal (tag : UInt64) : UInt8 := ((tag ||| -tag) >>> 63).toUInt8

def routingBits (tag : UInt64) : UInt64 := tag &&& routingBitsMask

def toLeaf (tag : UInt64) (height : Nat) : TreeIndex := addressToLeaf tag height

def pathRankKey (tag : UInt64) (position : TreeIndex) (height : Nat) : UInt64 :=
  let routing := routingBits tag
  let leafSuffixMask := 2 ^ height - 1
  let evictSuffix := position &&& leafSuffixMask
  let evictRouting := UInt64.ofNat (evictSuffix <<< (maxTreeHeight - height))
  let rankedRouting := routing ^^^ evictRouting
  let marker := ctIsReal tag
  let dummyBit := (ctNot marker).toUInt64
  let identity := tag >>> 32
  (dummyBit <<< 63) ||| (rankedRouting <<< 32) ||| identity

/-- Leading zeros of a 64-bit word. -/
def leadingZeros (x : Nat) : Nat := 64 - x.size

def ctNodeOnPath (leaf : TreeIndex) (depth height : Nat) : TreeIndex := leaf >>> (height - depth)

/-- `63u64.saturating_sub(leading_zeros)` -/
def ctDepth (index : TreeIndex) : Nat := 63 - leadingZeros index

def leafCount (height : Nat) : Nat := 2 ^ height

@[simp] theorem ctIsReal_spec (tag : UInt64) : ctIsReal tag = (decide (tag ≠ 0)).toUInt8 := by
  rw [ctIsReal, nonzero_bit]
  by_cases h : tag = 0 <;> simp [h] <;> rfl

theorem routingBits_toNat (tag : UInt64) : (routingBits tag).toNat = tag.toNat % 2 ^ 31 := by
  rw [routingBits, UInt64.toNat_and, show routingBitsMask.toNat = 2 ^ 31 - 1 by decide,
    Nat.and_two_pow_sub_one_eq_mod]

/-- A leaf is the marker bit followed by a prefix of the routing bits. -/
theorem toLeaf_eq (tag : UInt64) (height : Nat) :
    toLeaf tag height = (2 ^ 31 + tag.toNat % 2 ^ 31) / 2 ^ (31 - height) := by
  have low : tag.toNat % 2 ^ 31 < 2 ^ 31 := Nat.mod_lt _ (by decide)
  have routing : (tag &&& routingBitsMask).toNat = tag.toNat % 2 ^ 31 := routingBits_toNat tag
  have marker : realAddrMarker.toNat = 2 ^ 31 := by decide
  rw [toLeaf, addressToLeaf, Nat.shiftRight_eq_div_pow, maxTreeHeight, UInt64.toNat_or, routing, marker,
    Nat.or_two_pow_eq_add_of_lt low, Nat.add_comm]

/-- The ancestor of a leaf at a smaller depth is the leaf of that depth. -/
theorem toLeaf_shiftRight (tag : UInt64) {depth height : Nat} (hd : depth ≤ height)
    (hh : height ≤ 31) : toLeaf tag height >>> (height - depth) = toLeaf tag depth := by
  rw [toLeaf_eq, toLeaf_eq, Nat.shiftRight_eq_div_pow, Nat.div_div_eq_div_mul, ← Nat.pow_add]
  congr 2
  omega

theorem toLeaf_bounds (tag : UInt64) {height : Nat} (hh : height ≤ 31) :
    2 ^ height ≤ toLeaf tag height ∧ toLeaf tag height < 2 ^ (height + 1) := by
  have low : tag.toNat % 2 ^ 31 < 2 ^ 31 := Nat.mod_lt _ (by decide)
  have split : 2 ^ 31 = 2 ^ height * 2 ^ (31 - height) := by
    rw [← Nat.pow_add]
    congr 1
    omega
  have pos : 0 < 2 ^ (31 - height) := Nat.two_pow_pos _
  rw [toLeaf_eq]
  constructor
  · rw [Nat.le_div_iff_mul_le pos, ← split]
    omega
  · rw [Nat.div_lt_iff_lt_mul pos, Nat.pow_succ 2 height, Nat.mul_right_comm, ← split]
    omega

theorem size_of_bounds {n height : Nat} (low : 2 ^ height ≤ n) (high : n < 2 ^ (height + 1)) :
    n.size = height + 1 :=
  Nat.le_antisymm (Nat.size_le.mpr high) (Nat.lt_size.mpr low)

/-- A leaf of a tree of any supported height has that depth. -/
theorem ctDepth_of_bounds {leaf height : Nat} (low : 2 ^ height ≤ leaf)
    (high : leaf < 2 ^ (height + 1)) (hh : height ≤ 31) : ctDepth leaf = height := by
  rw [ctDepth, leadingZeros, size_of_bounds low high]
  omega

theorem ctDepth_le {position : TreeIndex} (h : position < 2 ^ 32) : ctDepth position ≤ 31 := by
  have small := Nat.size_le.mpr h
  rw [ctDepth, leadingZeros]
  omega

theorem ctNodeOnPath_bounds {leaf depth height : Nat} (low : 2 ^ height ≤ leaf)
    (high : leaf < 2 ^ (height + 1)) (hd : depth ≤ height) :
    2 ^ depth ≤ ctNodeOnPath leaf depth height ∧ ctNodeOnPath leaf depth height < 2 ^ (depth + 1) := by
  have pos : 0 < 2 ^ (height - depth) := Nat.two_pow_pos _
  have up : 2 ^ height = 2 ^ depth * 2 ^ (height - depth) := by
    rw [← Nat.pow_add]
    congr 1
    omega
  rw [ctNodeOnPath, Nat.shiftRight_eq_div_pow]
  constructor
  · rw [Nat.le_div_iff_mul_le pos]
    omega
  · rw [Nat.div_lt_iff_lt_mul pos, Nat.pow_succ 2 depth, Nat.mul_right_comm, ← up]
    omega

theorem ctNodeOnPath_inj {leaf d d' height : Nat} (low : 2 ^ height ≤ leaf)
    (high : leaf < 2 ^ (height + 1)) (hd : d ≤ height) (hd' : d' ≤ height)
    (h : ctNodeOnPath leaf d height = ctNodeOnPath leaf d' height) : d = d' := by
  have b := ctNodeOnPath_bounds low high hd
  have b' := ctNodeOnPath_bounds low high hd'
  rw [← h] at b'
  have s := size_of_bounds b.1 b.2
  rw [size_of_bounds b'.1 b'.2] at s
  omega

/-- Two leaves share their ancestor at a depth exactly when they differ only below it. -/
theorem shared_iff {a b height depth : Nat} (hd : depth ≤ height) :
    depth + (a ^^^ b).size ≤ height ↔ a >>> (height - depth) = b >>> (height - depth) := by
  rw [← Nat.xor_eq_zero_iff, ← Nat.shiftRight_xor_distrib, Nat.shiftRight_eq_div_pow,
    Nat.div_eq_zero_iff_lt (Nat.two_pow_pos _), ← Nat.size_le]
  omega

/-- The ranked routing bits of `path_rank_key`, as a number. -/
def rank (tag : UInt64) (position height : Nat) : Nat :=
  tag.toNat % 2 ^ 31 ^^^ position % 2 ^ height * 2 ^ (31 - height)

theorem evictRouting_lt (position : Nat) {height : Nat} (hh : height ≤ 31) :
    position % 2 ^ height * 2 ^ (31 - height) < 2 ^ 31 := by
  have up : 2 ^ 31 = 2 ^ height * 2 ^ (31 - height) := by
    rw [← Nat.pow_add]
    congr 1
    omega
  rw [up]
  exact Nat.mul_lt_mul_of_pos_right (Nat.mod_lt _ (Nat.two_pow_pos _)) (Nat.two_pow_pos _)

theorem rank_lt (tag : UInt64) (position : Nat) {height : Nat} (hh : height ≤ 31) :
    rank tag position height < 2 ^ 31 :=
  Nat.xor_lt_two_pow (Nat.mod_lt _ (by decide)) (evictRouting_lt position hh)

/-- The key orders dummies last, then by ranked routing bits, then by the high half. -/
theorem pathRankKey_toNat (tag : UInt64) (position : TreeIndex) {height : Nat} (hh : height ≤ 31) :
    (pathRankKey tag position height).toNat =
      (if tag = 0 then 2 ^ 63 else 0) + rank tag position height * 2 ^ 32 + tag.toNat / 2 ^ 32 := by
  have ranked : (routingBits tag ^^^
      UInt64.ofNat ((position &&& (2 ^ height - 1)) <<< (maxTreeHeight - height))).toNat =
      rank tag position height := by
    have small := evictRouting_lt position hh
    rw [UInt64.toNat_xor, routingBits_toNat, UInt64.toNat_ofNat', Nat.and_two_pow_sub_one_eq_mod,
      Nat.shiftLeft_eq, maxTreeHeight, Nat.mod_eq_of_lt (small.trans (by decide)), rank]
  have below := rank_lt tag position hh
  have high := tag.toNat_lt
  have identity : tag.toNat >>> 32 = tag.toNat / 2 ^ 32 := Nat.shiftRight_eq_div_pow _ _
  have dummy : ((ctNot (ctIsReal tag)).toUInt64 <<< 63).toNat = if tag = 0 then 2 ^ 63 else 0 := by
    rw [ctIsReal_spec, ctNot_toUInt8]
    by_cases h : tag = 0 <;> simp [h]
  rw [pathRankKey]
  simp only [UInt64.toNat_or, dummy]
  rw [UInt64.toNat_shiftLeft, UInt64.toNat_shiftRight, ranked]
  change ((if tag = 0 then 2 ^ 63 else 0) ||| rank tag position height <<< 32 % 2 ^ 64) |||
    tag.toNat >>> 32 = _
  rw [identity, Nat.shiftLeft_eq, Nat.mod_eq_of_lt (by omega), Nat.or_assoc, Nat.mul_comm _ (2 ^ 32),
    ← Nat.two_pow_add_eq_or_of_lt (by omega)]
  split
  · rw [← Nat.mul_one (2 ^ 63), ← Nat.two_pow_add_eq_or_of_lt (by omega)]
    omega
  · rw [Nat.zero_or]
    omega

theorem add_xor_add {n x y : Nat} (hx : x < 2 ^ n) (hy : y < 2 ^ n) :
    (2 ^ n + x) ^^^ (2 ^ n + y) = x ^^^ y := by
  rw [Nat.add_comm _ x, Nat.add_comm _ y, ← Nat.or_two_pow_eq_add_of_lt hx,
    ← Nat.or_two_pow_eq_add_of_lt hy]
  apply Nat.eq_of_testBit_eq
  intro i
  rw [Nat.testBit_xor, Nat.testBit_or, Nat.testBit_or, Nat.testBit_xor, Nat.testBit_two_pow]
  by_cases h : n = i
  · subst h
    rw [Nat.testBit_lt_two_pow hx, Nat.testBit_lt_two_pow hy]
    simp
  · simp [h]

/-- Above the leaf suffix the rank is the difference of the two leaves. -/
theorem xor_toLeaf (tag : UInt64) {position height : Nat} (low : 2 ^ height ≤ position)
    (high : position < 2 ^ (height + 1)) (hh : height ≤ 31) :
    position ^^^ toLeaf tag height = rank tag position height / 2 ^ (31 - height) := by
  have pos : 0 < 2 ^ (31 - height) := Nat.two_pow_pos _
  have up : 2 ^ 31 = 2 ^ height * 2 ^ (31 - height) := by
    rw [← Nat.pow_add]
    congr 1
    omega
  have suffix : position = 2 ^ height + position % 2 ^ height := by
    rw [Nat.mod_eq_sub_mod low, Nat.mod_eq_of_lt (by omega)]
    omega
  have low31 : tag.toNat % 2 ^ 31 < 2 ^ height * 2 ^ (31 - height) :=
    up ▸ Nat.mod_lt _ (by decide)
  rw [rank, Nat.xor_div_two_pow, Nat.mul_div_cancel _ pos, toLeaf_eq, Nat.xor_comm]
  conv_lhs => rw [suffix]
  rw [show (2 ^ 31 + tag.toNat % 2 ^ 31) / 2 ^ (31 - height) =
    2 ^ height + tag.toNat % 2 ^ 31 / 2 ^ (31 - height) by
      nth_rewrite 1 [up]
      rw [Nat.add_comm, Nat.add_mul_div_right _ _ pos, Nat.add_comm]]
  exact add_xor_add ((Nat.div_lt_iff_lt_mul pos).mpr low31) (Nat.mod_lt _ (Nat.two_pow_pos _))

/-- The tag without bit 31, which neither routing nor the sort key reads. -/
def identityBits (tag : UInt64) : UInt64 × UInt64 := (tag >>> 32, routingBits tag)

theorem identityBits_eq_iff (a b : UInt64) : identityBits a = identityBits b ↔
    a.toNat % 2 ^ 31 = b.toNat % 2 ^ 31 ∧ a.toNat / 2 ^ 32 = b.toNat / 2 ^ 32 := by
  rw [identityBits, identityBits, Prod.mk.injEq, ← UInt64.toNat_inj, ← UInt64.toNat_inj,
    routingBits_toNat, routingBits_toNat, UInt64.toNat_shiftRight, UInt64.toNat_shiftRight,
    Nat.shiftRight_eq_div_pow, Nat.shiftRight_eq_div_pow]
  exact and_comm

/-- Two real tags have equal sort keys exactly when they agree off bit 31. -/
theorem pathRankKey_inj {a b : UInt64} (ha : a ≠ 0) (hb : b ≠ 0) {position height : Nat}
    (hh : height ≤ 31) :
    pathRankKey a position height = pathRankKey b position height ↔ identityBits a = identityBits b := by
  rw [← UInt64.toNat_inj, pathRankKey_toNat a position hh, pathRankKey_toNat b position hh,
    if_neg ha, if_neg hb, identityBits_eq_iff]
  have ranks : rank a position height = rank b position height ↔
      a.toNat % 2 ^ 31 = b.toNat % 2 ^ 31 := Nat.xor_left_inj
  rw [← ranks]
  have := a.toNat_lt
  have := b.toNat_lt
  omega

end Roga
