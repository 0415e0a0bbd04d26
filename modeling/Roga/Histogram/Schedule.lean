import Roga.Histogram.Ops

/-! The bit-reversed eviction schedule. -/
namespace Roga
namespace ObliviousHistogram

theorem reverseBits_testBit (x : UInt64) {i : Nat} (hi : i < 64) :
    (reverseBits x).toNat.testBit i = x.toNat.testBit (63 - i) := by
  have reversed : x.toBitVec.reverse.getLsbD i = x.toBitVec.getMsbD i := BitVec.getLsbD_reverse
  rw [BitVec.getMsbD_eq_getLsbD, decide_eq_true hi, Bool.true_and] at reversed
  exact reversed

/-- Below the leading one the bits of the counter appear in reverse. -/
theorem evictLeafAt_testBit {height : Nat} (hh : height ≤ 31) (evictCtr : Nat) {i : Nat} (hi : i < height) :
    (evictLeafAt height evictCtr).testBit i = evictCtr.testBit (height - 1 - i) := by
  have small : evictCtr % leafCount height < 2 ^ 64 :=
    (Nat.mod_lt _ (Nat.two_pow_pos _)).trans_le (Nat.pow_le_pow_right Nat.two_pos (by omega))
  rw [evictLeafAt, Nat.testBit_or, Nat.testBit_shiftRight, reverseBits_testBit _ (by omega),
    UInt64.toNat_ofNat_of_lt' small, leafCount, Nat.testBit_two_pow_of_ne (by omega), Bool.false_or,
    Nat.testBit_mod_two_pow, decide_eq_true (by omega), Bool.true_and]
  congr 1
  omega

/-- Two evictions of one leaf are a multiple of the number of leaves apart. -/
theorem evictLeafAt_inj {height : Nat} (hh : height ≤ 31) {a b : Nat}
    (same : evictLeafAt height a = evictLeafAt height b) : a % 2 ^ height = b % 2 ^ height := by
  apply Nat.eq_of_testBit_eq
  intro i
  rw [Nat.testBit_mod_two_pow, Nat.testBit_mod_two_pow]
  by_cases hi : i < height
  · have bits := evictLeafAt_testBit hh a (i := height - 1 - i) (by omega)
    rw [same, evictLeafAt_testBit hh b (by omega), show height - 1 - (height - 1 - i) = i by omega] at bits
    rw [bits]
  · simp [hi]

/-- How many of the `n` evictions from number `w` on visit a leaf. -/
def visits (height w n : Nat) (leaf : TreeIndex) : Nat :=
  ((List.range n).filter fun j => evictLeafAt height (w + j) = leaf).length

theorem visits_succ (height w n : Nat) (leaf : TreeIndex) : visits height w (n + 1) leaf =
    visits height w n leaf + if evictLeafAt height (w + n) = leaf then 1 else 0 := by
  rw [visits, List.range_succ, List.filter_append, List.length_append, visits]
  congr 1
  by_cases here : evictLeafAt height (w + n) = leaf <;> simp [here]

/-- No leaf comes twice in a window no longer than the number of leaves. -/
theorem evictLeafAt_injOn {height : Nat} (hh : height ≤ 31) (w : Nat) {n : Nat} (hn : n ≤ leafCount height) {i j : Nat}
    (hi : i < n) (hj : j < n) (same : evictLeafAt height (w + i) = evictLeafAt height (w + j)) : i = j := by
  have congruent : w + i ≡ w + j [MOD 2 ^ height] := evictLeafAt_inj hh same
  have cancelled : i % 2 ^ height = j % 2 ^ height := congruent.add_left_cancel'
  rw [leafCount] at hn
  rwa [Nat.mod_eq_of_lt (hi.trans_le hn), Nat.mod_eq_of_lt (hj.trans_le hn)] at cancelled

/-- A window no longer than the number of leaves visits each leaf at most once. -/
theorem visits_le_one {height : Nat} (hh : height ≤ 31) (w : Nat) {n : Nat} (hn : n ≤ leafCount height)
    (leaf : TreeIndex) : visits height w n leaf ≤ 1 := by
  have distinct : ((List.range n).map fun j => evictLeafAt height (w + j)).Nodup := by
    refine List.nodup_range.map_on fun i hi j hj same => ?_
    exact evictLeafAt_injOn hh w hn (List.mem_range.mp hi) (List.mem_range.mp hj) same
  have once := List.nodup_iff_count_le_one.mp distinct leaf
  rwa [List.count_eq_countP, List.countP_map, List.countP_eq_length_filter] at once

end ObliviousHistogram
end Roga
