import Mathlib.Algebra.Order.Field.Basic
import Mathlib.Data.Nat.Log
import Roga.Probability.Binomial
import Roga.Search.Bisect
import Roga.Sharded.Flush

/-! The suggested quotas of `binomial_solver.rs` and the sharded layer. The tail
`binom_sf` is a parameter; the arithmetic of the floating-point numbers is exact, in any
ordered field, that of the integers is the machine's. -/
namespace Roga
open Reals
variable {𝕜 : Type} [Field 𝕜] [LinearOrder 𝕜]

/-- The exponent of the target is cast to an `i32` and negated there, both with wrap-around. -/
def suggestedPerShardQuota (binomSf : Nat → Nat → 𝕜 → 𝕜) (batchSize shardCount securityBits : Nat) : Nat :=
  let p : 𝕜 := 1 / shardCount
  let target := (2 : 𝕜) ^ (-Int32.ofNat securityBits).toInt * p
  bisect (fun mid => binomSf batchSize mid p ≤ target) (batchSize / shardCount) batchSize

def suggestedPerShardQuotaWithFrontends (binomSf : Nat → Nat → 𝕜 → 𝕜)
    (batchSize shardCount securityBits frontendCount : Nat) : Nat :=
  let f := max frontendCount 1
  let frontendUnionBits := 64 - leadingZeros (f - 1)
  -- `saturating_add` of a `usize`
  f * suggestedPerShardQuota binomSf (batchSize / f) shardCount (min (securityBits + frontendUnionBits) (2 ^ 64 - 1))

section Bits

/-- The bit length of `f - 1` is the ceiling of the binary logarithm of `f`. -/
theorem frontendUnionBits_eq {f : Nat} (some : 1 ≤ f) (word : f < 2 ^ 64) : 64 - leadingZeros (f - 1) = Nat.clog 2 f := by
  have small : (f - 1).size ≤ 64 := Nat.size_le.mpr (by omega)
  have length : (f - 1).size = Nat.clog 2 f := by
    apply eq_of_forall_ge_iff
    intro n
    rw [Nat.size_le, Nat.clog_le_iff_le_pow Nat.one_lt_two]
    omega
  rw [leadingZeros, ← length]
  omega

theorem clog_le_64 {f : Nat} (word : f < 2 ^ 64) : Nat.clog 2 f ≤ 64 :=
  Nat.clog_le_of_le_pow word.le

/-- A sum of bit counts that no `i32` can hold is cast to one that asks for less than the first of them. -/
theorem neg_lt_exponent {bits u : Nat} (large : 2 ^ 31 < bits + u) (few : u ≤ 64) :
    -(bits : ℤ) < (-Int32.ofNat (min (bits + u) (2 ^ 64 - 1))).toInt := by
  have size : Int32.size = 4294967296 := rfl
  rw [Int32.toInt_neg, Int32.toInt_ofNat', size, Int.bmod_neg_bmod, Int.bmod_def]
  omega

variable [IsStrictOrderedRing 𝕜]

/-- The target of the search is the bound split over shards and a power of two of frontends. -/
theorem le_target_iff {m : Nat} (some : 1 ≤ m) (bits u : Nat) (tail : 𝕜) :
    tail ≤ (2 : 𝕜) ^ (-((bits + u : Nat) : ℤ)) * (1 / m) ↔ 2 ^ u * m * tail ≤ (2 : 𝕜) ^ (-(bits : ℤ)) := by
  have shards : (0 : 𝕜) < m := Nat.cast_pos.mpr some
  have union : (0 : 𝕜) < 2 ^ u := pow_pos two_pos u
  have split : (2 : 𝕜) ^ (-((bits + u : Nat) : ℤ)) * (1 / m) = 2 ^ (-(bits : ℤ)) / (2 ^ u * m) := by
    rw [zpow_neg, zpow_neg, zpow_natCast, zpow_natCast, pow_add]
    field_simp
  rw [split, le_div_iff₀ (mul_pos union shards), mul_comm tail]

/-- The true number of frontends needs no more than the power of two does. -/
theorem bound_of_union_bound {f m u : Nat} (fits : f ≤ 2 ^ u) {tail bound : 𝕜} (pos : 0 ≤ bound)
    (h : 2 ^ u * m * tail ≤ bound) : f * m * tail ≤ bound := by
  obtain below | above := le_total tail 0
  · exact (mul_nonpos_of_nonneg_of_nonpos (mul_nonneg f.cast_nonneg m.cast_nonneg) below).trans pos
  · have scale : (f : 𝕜) ≤ 2 ^ u := by exact_mod_cast fits
    exact (mul_le_mul_of_nonneg_right (mul_le_mul_of_nonneg_right scale m.cast_nonneg) above).trans h

end Bits

section Search
variable {binomSf : Nat → Nat → 𝕜 → 𝕜} {n m bits u : Nat}

theorem suggestedPerShardQuota_range (binomSf : Nat → Nat → 𝕜 → 𝕜) (n m bits : Nat) :
    n / m ≤ suggestedPerShardQuota binomSf n m bits ∧ suggestedPerShardQuota binomSf n m bits ≤ n := by
  obtain ⟨above, below, -⟩ := bisect_stops
    (fun mid => binomSf n mid (1 / m) ≤ 2 ^ (-Int32.ofNat bits).toInt * (1 / m)) (Nat.div_le_self n m)
  exact ⟨above, below⟩

theorem suggestedPerShardQuotaWithFrontends_eq (binomSf : Nat → Nat → 𝕜 → 𝕜) (n m bits : Nat) {f : Nat} (some : 1 ≤ f)
    (word : f < 2 ^ 64) : suggestedPerShardQuotaWithFrontends binomSf n m bits f =
      f * suggestedPerShardQuota binomSf (n / f) m (min (bits + Nat.clog 2 f) (2 ^ 64 - 1)) := by
  simp only [suggestedPerShardQuotaWithFrontends, Nat.max_eq_left some, frontendUnionBits_eq some word]

/-- A target that every number of the range meets stops the search at once. -/
theorem suggestedPerShardQuota_of_constant {tail : 𝕜} (meets : tail ≤ 2 ^ (-Int32.ofNat bits).toInt * (1 / m)) :
    suggestedPerShardQuota (fun _ _ _ => tail) n m bits = n / m := by
  refine Nat.le_antisymm (Nat.le_of_not_lt fun more => ?_) (suggestedPerShardQuota_range _ n m bits).1
  exact bisect_passed (fun _ _ _ same => same) (Nat.le_refl _) more meets

variable [IsStrictOrderedRing 𝕜]

omit [IsStrictOrderedRing 𝕜] in
/-- A bit count that an `i32` can hold, or whose negative it can, reaches the target unchanged. -/
theorem suggestedPerShardQuota_of_le (binomSf : Nat → Nat → 𝕜 → 𝕜) (n m : Nat) (fits : bits ≤ 2 ^ 31) :
    suggestedPerShardQuota binomSf n m bits =
      bisect (fun mid => binomSf n mid (1 / m) ≤ 2 ^ (-(bits : ℤ)) * (1 / m)) (n / m) n := by
  simp only [suggestedPerShardQuota, Ct.toInt_neg_ofNat fits]

theorem suggestedPerShardQuota_meets (binomSf : Nat → Nat → 𝕜 → 𝕜) (n : Nat) (some : 1 ≤ m)
    (fits : bits + u ≤ 2 ^ 31) :
    2 ^ u * m * binomSf n (suggestedPerShardQuota binomSf n m (bits + u)) (1 / m) ≤ 2 ^ (-(bits : ℤ)) ∨
      suggestedPerShardQuota binomSf n m (bits + u) = n := by
  rw [suggestedPerShardQuota_of_le binomSf n m fits]
  obtain ⟨-, -, same | meets⟩ := bisect_stops
    (fun mid => binomSf n mid (1 / m) ≤ 2 ^ (-((bits + u : Nat) : ℤ)) * (1 / m)) (Nat.div_le_self n m)
  · exact Or.inr same
  · exact Or.inl ((le_target_iff some bits u _).mp meets)

theorem suggestedPerShardQuota_least (some : 1 ≤ m) (fits : bits + u ≤ 2 ^ 31)
    (anti : Antitone fun k => binomSf n k (1 / m)) {k : Nat} (range : n / m ≤ k)
    (less : k < suggestedPerShardQuota binomSf n m (bits + u)) :
    ¬ 2 ^ u * m * binomSf n k (1 / m) ≤ 2 ^ (-(bits : ℤ)) := by
  rw [suggestedPerShardQuota_of_le binomSf n m fits] at less
  rw [← le_target_iff some]
  exact bisect_passed (fun i j le meets => (anti le).trans meets) range less

end Search

section Overflow
variable {K : Nat} {V : Type} [Add V] [Inhabited V]

/-- A sub-batch no longer than the quota overflows no shard. -/
theorem processSubBatch_of_length_le {batch : List (OramBlock K V)} {m q : Nat} (some : 1 ≤ m) (short : batch.length ≤ q) :
    ∃ frontend, processSubBatch batch m q = .ok frontend := by
  obtain ⟨sorted, rest, perm, ascending, dummies, reduced⟩ := sortReduceCompact_eq batch
    fun block => shardSortKey m block.tag
  have survivors := survivors_of_sorted perm ascending
  have length : (reals (reduceEqualRuns sorted)).length ≤ q := by
    calc (reals (reduceEqualRuns sorted)).length ≤ (reduceEqualRuns sorted).length := List.length_filter_le _ _
      _ = batch.length := by rw [reduceEqualRuns_length, perm.length_eq]
      _ ≤ q := short
  rcases @processSubBatch_run K V _ _ batch m q _ _ (Nat.ne_of_gt some) survivors.real dummies reduced with
    ⟨-, frontend, run, -⟩ | ⟨overflow, -⟩
  · exact ⟨frontend, run⟩
  · exact absurd (fun s _ => List.countP_le_length.trans length) overflow

end Overflow

section Router
variable {Shard : Type} {K : Nat} {V : Type} [Add V] [Inhabited V]

/-- The divisions of the constructor and of the flush cancel. -/
theorem routeBatch_subQuota {router : ShardedBatchRouter Shard K V} (formed : router.Formed) {f q : Nat}
    (frontends : router.frontendCount = f) (quota : router.perShardQuota = f * q) (batch : List (OramBlock K V)) :
    router.perShardQuota / router.frontends.length = q ∧
      router.routeBatch batch = if router.batchCapacity / f = 0 then .error .chunkSizeZero
        else ShardedBatchRouter.processChunks router.shardCount q router.frontends
          (chunksOf (router.batchCapacity / f) (batch.take router.batchCapacity)) := by
  have count : router.frontends.length = f := formed.frontends.trans frontends
  have same : router.perShardQuota / router.frontends.length = q := by
    rw [count, quota, Nat.mul_div_cancel_left q (frontends ▸ formed.frontend)]
  refine ⟨same, ?_⟩
  rw [ShardedBatchRouter.routeBatch, same, count]

end Router

section Promise
variable (Shard : Type) (K : Nat) (V : Type) [Add V] [Inhabited V]

/-- What the suggested quota promises: every frontend flushes at the sub-quota `q`, the
least in its range to meet the union bound over shards and a power of two of frontends,
or the size of a sub-batch, which no shard can overflow. -/
structure QuotaMeetsBound (binomSf : Nat → Nat → 𝕜 → 𝕜) (batchSize m securityBits f q : Nat) : Prop where
  split : suggestedPerShardQuotaWithFrontends binomSf batchSize m securityBits f = f * q
  flushes : ∀ router : ShardedBatchRouter Shard K V, router.Formed → router.batchCapacity = batchSize →
    router.perShardQuota = suggestedPerShardQuotaWithFrontends binomSf batchSize m securityBits f →
    router.frontendCount = f →
    router.perShardQuota / router.frontends.length = q ∧
    ∀ batch, router.routeBatch batch = if batchSize / f = 0 then .error .chunkSizeZero
      else ShardedBatchRouter.processChunks router.shardCount q router.frontends
        (chunksOf (batchSize / f) (batch.take batchSize))
  low : batchSize / f / m ≤ q
  high : q ≤ batchSize / f
  least : ∀ k, batchSize / f / m ≤ k → k < q →
    ¬ 2 ^ Nat.clog 2 f * m * binomSf (batchSize / f) k (1 / m) ≤ (2 : 𝕜) ^ (-(securityBits : ℤ))
  bound : f * m * binomSf (batchSize / f) q (1 / m) ≤ (2 : 𝕜) ^ (-(securityBits : ℤ)) ∨
    q = batchSize / f ∧ ∀ subBatch : List (OramBlock K V), subBatch.length ≤ batchSize / f →
      ∃ frontend, processSubBatch subBatch m q = .ok frontend

variable {binomSf : Nat → Nat → 𝕜 → 𝕜} {batchSize m bits f q : Nat}

/-- The divisions cancel and the range is kept for every bit count; the rest is about the bound. -/
theorem QuotaMeetsBound.of_search (frontends : 1 ≤ f) (word : f < 2 ^ 64)
    (search : suggestedPerShardQuota binomSf (batchSize / f) m (min (bits + Nat.clog 2 f) (2 ^ 64 - 1)) = q)
    (least : ∀ k, batchSize / f / m ≤ k → k < q →
      ¬ 2 ^ Nat.clog 2 f * m * binomSf (batchSize / f) k (1 / m) ≤ (2 : 𝕜) ^ (-(bits : ℤ)))
    (bound : f * m * binomSf (batchSize / f) q (1 / m) ≤ (2 : 𝕜) ^ (-(bits : ℤ)) ∨ q = batchSize / f)
    (shards : 1 ≤ m) : QuotaMeetsBound Shard K V binomSf batchSize m bits f q := by
  have split := suggestedPerShardQuotaWithFrontends_eq binomSf batchSize m bits frontends word
  rw [search] at split
  obtain ⟨low, high⟩ := suggestedPerShardQuota_range binomSf (batchSize / f) m (min (bits + Nat.clog 2 f) (2 ^ 64 - 1))
  rw [search] at low high
  refine ⟨split, ?_, low, high, least, bound.imp_right fun whole => ⟨whole, ?_⟩⟩
  · rintro router formed rfl built count
    constructor
    · exact (routeBatch_subQuota formed count (built.trans split) []).1
    · intro batch
      exact (routeBatch_subQuota formed count (built.trans split) batch).2
  · intro subBatch short
    exact processSubBatch_of_length_le shards (short.trans whole.ge)

variable [IsStrictOrderedRing 𝕜]

theorem QuotaMeetsBound.of_le (shards : 1 ≤ m) (frontends : 1 ≤ f) (word : f < 2 ^ 64)
    (anti : Antitone fun k => binomSf (batchSize / f) k (1 / m)) (fits : bits + Nat.clog 2 f ≤ 2 ^ 31) :
    ∃ q, QuotaMeetsBound Shard K V binomSf batchSize m bits f q := by
  refine ⟨_, .of_search Shard K V frontends word rfl ?_ ?_ shards⟩ <;>
    rw [Nat.min_eq_left (fits.trans (by decide))]
  · intro k range less
    exact suggestedPerShardQuota_least shards fits anti range less
  · obtain meets | whole := suggestedPerShardQuota_meets binomSf (batchSize / f) shards fits
    · exact .inl (bound_of_union_bound (Nat.le_pow_clog Nat.one_lt_two f) (zpow_pos two_pos _).le meets)
    · exact .inr whole

omit [IsStrictOrderedRing 𝕜] in
/-- A range of one number leaves nothing to search. -/
theorem QuotaMeetsBound.of_whole (shards : 1 ≤ m) (frontends : 1 ≤ f) (word : f < 2 ^ 64)
    (whole : batchSize / f / m = batchSize / f) : ∃ q, QuotaMeetsBound Shard K V binomSf batchSize m bits f q := by
  obtain ⟨low, high⟩ := suggestedPerShardQuota_range binomSf (batchSize / f) m (min (bits + Nat.clog 2 f) (2 ^ 64 - 1))
  rw [whole] at low
  refine ⟨_, .of_search Shard K V frontends word (Nat.le_antisymm high low) ?_ (.inr rfl) shards⟩
  intro k range less
  rw [whole] at range
  exact absurd less (Nat.not_lt.mpr range)

/-- Past the range of the cast, a tail just at the target that the search takes misses the bound. -/
theorem whole_of_meetsBound (shards : 1 ≤ m) (frontends : 1 ≤ f) (word : f < 2 ^ 64) (large : 2 ^ 31 < bits + Nat.clog 2 f)
    (promise : QuotaMeetsBound Shard K V (fun _ _ _ =>
      (2 : 𝕜) ^ (-Int32.ofNat (min (bits + Nat.clog 2 f) (2 ^ 64 - 1))).toInt * (1 / m)) batchSize m bits f q) :
    batchSize / f / m = batchSize / f := by
  have asked := neg_lt_exponent large (clog_le_64 word)
  have split := promise.split.symm.trans (suggestedPerShardQuotaWithFrontends_eq _ batchSize m bits frontends word)
  rw [suggestedPerShardQuota_of_constant (le_refl _)] at split
  obtain rfl := Nat.eq_of_mul_eq_mul_left frontends split
  generalize (-Int32.ofNat (min (bits + Nat.clog 2 f) (2 ^ 64 - 1))).toInt = e at asked promise
  obtain meets | ⟨whole, -⟩ := promise.bound
  · have some : (m : 𝕜) ≠ 0 := Nat.cast_ne_zero.mpr (Nat.ne_of_gt shards)
    have less : (2 : 𝕜) ^ (-(bits : ℤ)) < f * m * (2 ^ e * (1 / m)) := by
      calc (2 : 𝕜) ^ (-(bits : ℤ)) < 2 ^ e := zpow_lt_zpow_right₀ one_lt_two asked
        _ ≤ f * 2 ^ e := le_mul_of_one_le_left (zpow_pos two_pos _).le (Nat.one_le_cast.mpr frontends)
        _ = f * m * (2 ^ e * (1 / m)) := by field_simp
    exact absurd meets less.not_ge
  · exact whole

end Promise

/-- The suggested quota meets its bound for every tail exactly when the bits survive the
cast, or there is one shard or no chunk to share out. -/
theorem suggested_quotas_meet_bound_iff [IsStrictOrderedRing 𝕜] {Shard : Type} {K : Nat} {V : Type} [Add V] [Inhabited V]
    {batchSize m securityBits f : Nat} (shards : 1 ≤ m) (frontends : 1 ≤ f) (word : f < 2 ^ 64) :
    (∀ binomSf : Nat → Nat → 𝕜 → 𝕜, (Antitone fun k => binomSf (batchSize / f) k (1 / m)) →
      ∃ q, QuotaMeetsBound Shard K V binomSf batchSize m securityBits f q) ↔
    securityBits + Nat.clog 2 f ≤ 2 ^ 31 ∨ m = 1 ∨ batchSize < f := by
  have single : batchSize / f / m = batchSize / f ↔ m = 1 ∨ batchSize < f := by
    rw [Nat.div_eq_self, Nat.div_eq_zero_iff_lt frontends, or_comm]
  rw [← single]
  constructor
  · intro promise
    refine or_iff_not_imp_left.mpr fun large => ?_
    obtain ⟨q, meets⟩ := promise
      (fun _ _ _ => (2 : 𝕜) ^ (-Int32.ofNat (min (securityBits + Nat.clog 2 f) (2 ^ 64 - 1))).toInt * (1 / m))
      fun _ _ _ => le_rfl
    exact whole_of_meetsBound Shard K V shards frontends word (Nat.lt_of_not_le large) meets
  · rintro (fits | whole) binomSf anti
    · exact QuotaMeetsBound.of_le Shard K V shards frontends word anti fits
    · exact QuotaMeetsBound.of_whole Shard K V shards frontends word whole

theorem suggested_quotas_meet_bound_iff_three :
    let quota := suggestedPerShardQuotaWithFrontends (fun n k (p : ℚ) => Binomial.upperTail n p k) 24 2 1 3
    let router : ShardedBatchRouter Unit 1 Nat := .newWithFrontends [(), ()] 24 quota 3 id
    ∃ q, quota = 3 * q ∧ router.perShardQuota / router.frontends.length = q ∧ 4 ≤ q ∧ q ≤ 8 := by
  intro quota router
  have anti : Antitone fun k => Binomial.upperTail (24 / 3) (1 / ((2 : Nat) : ℚ)) k :=
    Binomial.upperTail_antitone _ (by norm_num) (by norm_num)
  obtain ⟨q, promise⟩ := (@suggested_quotas_meet_bound_iff ℚ _ _ _ Unit 1 Nat _ _ 24 2 1 3 (by decide) (by decide)
    (by decide)).mpr (.inl (by decide)) (fun n k p => Binomial.upperTail n p k) anti
  have formed := ShardedBatchRouter.newWithFrontends_formed (K := 1) (V := Nat) [(), ()] 24 quota 3 id
  exact ⟨q, promise.split, (promise.flushes router formed rfl rfl rfl).1, promise.low, promise.high⟩

section Wrapped

/-- The exact tail of four trials at 1/2. -/
theorem upperTail_four_antitone : Antitone fun k => Binomial.upperTail 4 (1 / ((2 : Nat) : ℚ)) k :=
  Binomial.upperTail_antitone _ (by norm_num) (by norm_num)

theorem upperTail_four_two : Binomial.upperTail 4 (1 / ((2 : Nat) : ℚ)) 2 = 11 / 16 := by decide +kernel

theorem upperTail_four_three : Binomial.upperTail 4 (1 / ((2 : Nat) : ℚ)) 3 = 5 / 16 := by decide +kernel

/-- With 2³² security bits the target is half of `2⁰`, which the tail at 3 meets first. -/
theorem suggestedPerShardQuota_wrapped :
    suggestedPerShardQuota (fun n k (p : ℚ) => Binomial.upperTail n p k) 4 2 (2 ^ 32) = 3 := by
  have exponent : (-Int32.ofNat (2 ^ 32)).toInt = 0 := by decide
  simp only [suggestedPerShardQuota, exponent]
  refine bisect_eq (fun j => ?_) (by decide) (by decide)
  constructor
  · intro meets
    by_contra early
    have misses := (upperTail_four_antitone (show j ≤ 2 by omega)).trans meets
    simp only [upperTail_four_two] at misses
    norm_num at misses
  · intro late
    refine (upperTail_four_antitone late).trans ?_
    simp only [upperTail_four_three]
    norm_num

end Wrapped

theorem suggested_quotas_miss_bound :
    let tail (n k : Nat) (p : ℚ) := Binomial.upperTail n p k
    (Antitone fun k => tail (4 / 1) k (1 / (2 : Nat))) ∧
      suggestedPerShardQuotaWithFrontends tail 4 2 (2 ^ 32) 1 = 3 ∧
      ¬ ∃ q, QuotaMeetsBound Unit 1 Nat tail 4 2 (2 ^ 32) 1 q := by
  intro tail
  have suggested : suggestedPerShardQuotaWithFrontends tail 4 2 (2 ^ 32) 1 = 3 := by
    rw [suggestedPerShardQuotaWithFrontends_eq tail 4 2 _ (Nat.le_refl 1) (by decide), Nat.clog_one_right,
      Nat.min_eq_left (by decide), Nat.one_mul]
    exact suggestedPerShardQuota_wrapped
  refine ⟨upperTail_four_antitone, suggested, ?_⟩
  rintro ⟨q, promise⟩
  obtain rfl : q = 3 := by rw [← Nat.one_mul q, ← promise.split, suggested]
  obtain meets | ⟨whole, -⟩ := promise.bound
  · have tiny : (2 : ℚ) ^ (-((2 ^ 32 : Nat) : ℤ)) ≤ 2 ^ (-1 : ℤ) :=
      zpow_le_zpow_right₀ one_le_two (neg_le_neg (by decide))
    have above : (1 : Nat) * (2 : Nat) * (5 / 16 : ℚ) ≤ 2 ^ (-1 : ℤ) := by
      rw [← upperTail_four_three]
      exact meets.trans tiny
    norm_num at above
  · exact absurd whole (by decide)

end Roga
