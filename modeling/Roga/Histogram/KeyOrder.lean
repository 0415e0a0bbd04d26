import Roga.Histogram.WriteToPath

/-! The eviction sort key against the eviction level: one is an xor of the routing
bits, the other a count of leading zeros, and the first orders by the second. -/
namespace Roga
open Ct ObliviousStash
variable {position height : Nat}

/-- Bit 31 is the one bit of a tag that neither half of `path_rank_key` reads. -/
theorem identityBits_eq_iff_testBit (a b : UInt64) : identityBits a = identityBits b ↔
    ∀ i, i ≠ 31 → a.toNat.testBit i = b.toNat.testBit i := by
  rw [identityBits_eq_iff]
  constructor
  · rintro ⟨routing, identity⟩ i other
    obtain below | above := Nat.lt_or_gt_of_ne other
    · have bit := congrArg (fun n => n.testBit i) routing
      simpa only [Nat.testBit_mod_two_pow, below, decide_true, Bool.true_and] using bit
    · have bit := congrArg (fun n => n.testBit (i - 32)) identity
      simpa only [Nat.testBit_div_two_pow, Nat.sub_add_cancel (show 32 ≤ i from above)] using bit
  · intro agree
    constructor
    · apply Nat.eq_of_testBit_eq
      intro i
      rw [Nat.testBit_mod_two_pow, Nat.testBit_mod_two_pow]
      by_cases below : i < 31
      · rw [agree i (Nat.ne_of_lt below)]
      · simp only [below, decide_false, Bool.false_and]
    · apply Nat.eq_of_testBit_eq
      intro i
      rw [Nat.testBit_div_two_pow, Nat.testBit_div_two_pow, agree (i + 32) (by omega)]

/-- The dummy bit is above every bit of a real key. -/
theorem pathRankKey_dummy_last {b : UInt64} (hb : b ≠ 0) (position : TreeIndex) (hh : height ≤ 31) :
    pathRankKey b position height < pathRankKey 0 position height := by
  have below := rank_lt b position hh
  have tag := b.toNat_lt
  rw [UInt64.lt_iff_toNat_lt, pathRankKey_toNat b position hh, pathRankKey_toNat 0 position hh, if_neg hb,
    if_pos rfl]
  omega

/-- The ranked routing bits are the high part of a real key. -/
theorem rank_le_of_pathRankKey_le {a b : UInt64} (ha : a ≠ 0) (hb : b ≠ 0) {position : TreeIndex}
    (hh : height ≤ 31) (le : pathRankKey a position height ≤ pathRankKey b position height) :
    rank a position height ≤ rank b position height := by
  have left := a.toNat_lt
  have right := b.toNat_lt
  rw [UInt64.le_iff_toNat_le, pathRankKey_toNat a position hh, pathRankKey_toNat b position hh, if_neg ha,
    if_neg hb] at le
  omega

/-- `(height + shared_prefix_bits) - 64` does not underflow: both leaves start with the marker bit. -/
theorem deepestSharedLevel_no_underflow (tag : UInt64) (low : 2 ^ height ≤ position)
    (high : position < 2 ^ (height + 1)) (hh : height ≤ 31) :
    64 ≤ height + leadingZeros (position ^^^ toLeaf tag height) := by
  have small := xor_toLeaf_size tag low high hh
  rw [leadingZeros]
  omega

/-- The level is the depth of the deepest ancestor that the two leaves share. -/
theorem deepestSharedLevel_isGreatest (tag : UInt64) (low : 2 ^ height ≤ position)
    (high : position < 2 ^ (height + 1)) (hh : height ≤ 31) :
    IsGreatest {d | d ≤ height ∧ toLeaf tag height >>> (height - d) = position >>> (height - d)}
      (deepestSharedLevel position tag height) := by
  have legal : ∀ d ≤ height, d ≤ deepestSharedLevel position tag height ↔
      toLeaf tag height >>> (height - d) = position >>> (height - d) := fun d hd => by
    rw [le_deepestSharedLevel tag low high hh hd, toLeaf_shiftRight tag hd hh, ctNodeOnPath]
  have inside := deepestSharedLevel_le tag low high hh
  constructor
  · exact ⟨inside, (legal _ inside).mp (Nat.le_refl _)⟩
  · rintro d ⟨hd, same⟩
    exact (legal d hd).mpr same

/-- Dummies sort last, real tags sort by falling eviction level, and only tags that
agree off bit 31 share a key. -/
theorem path_rank_key_orders_levels (hh : height ≤ 31) (low : 2 ^ height ≤ position)
    (high : position < 2 ^ (height + 1)) (a b : UInt64) :
    (a = 0 → b ≠ 0 → pathRankKey b position height < pathRankKey a position height) ∧
    (a ≠ 0 → b ≠ 0 →
      (pathRankKey a position height ≤ pathRankKey b position height →
        deepestSharedLevel position b height ≤ deepestSharedLevel position a height) ∧
      (pathRankKey a position height = pathRankKey b position height ↔
        ∀ i, i ≠ 31 → a.toNat.testBit i = b.toNat.testBit i)) ∧
    ∀ tag ∈ [a, b],
      height ≤ maxTreeHeight ∧ 64 ≤ height + leadingZeros (position ^^^ toLeaf tag height) ∧
      IsGreatest {d | d ≤ height ∧ toLeaf tag height >>> (height - d) = position >>> (height - d)}
        (deepestSharedLevel position tag height) := by
  refine ⟨?_, ?_, ?_⟩
  · rintro rfl hb
    exact pathRankKey_dummy_last hb position hh
  · intro ha hb
    constructor
    · intro le
      exact deepestSharedLevel_antitone low high hh (rank_le_of_pathRankKey_le ha hb hh le)
    · rw [pathRankKey_inj ha hb hh, identityBits_eq_iff_testBit]
  · intro tag _
    exact ⟨hh, deepestSharedLevel_no_underflow tag low high hh, deepestSharedLevel_isGreatest tag low high hh⟩

theorem path_rank_key_orders_levels_of_three :
    (pathRankKey 1 5 2 < pathRankKey 0 5 2) ∧
    deepestSharedLevel 5 0x60000000 2 ≤ deepestSharedLevel 5 0x20000001 2 := by
  constructor
  · exact (path_rank_key_orders_levels (by decide) (by decide) (by decide) 0 1).1 rfl (by decide)
  · exact ((path_rank_key_orders_levels (by decide) (by decide) (by decide) 0x20000001 0x60000000).2.1
      (by decide) (by decide)).1 (by decide +kernel)

end Roga
