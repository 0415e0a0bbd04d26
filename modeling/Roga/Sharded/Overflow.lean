import Mathlib.Data.FinEnum
import Roga.Oblivious.BinomialTails
import Roga.Sharded.Quota

/-! A flush with the suggested quota seldom overflows a shard. Tags are drawn for the keys
of a batch, and a frontend's load of a shard is at most the number of its keys there, as long
as no two keys share the bits that the sort key keeps. -/
namespace Roga
open Ct Reals Trials
variable {K d : Nat} {V : Type}

/-- The bits of a tag that the sort key keeps besides the shard. -/
def sortBits (tag : UInt64) : Nat := tag.toNat % 2 ^ 57

/-- No two keys agree in these bits. -/
def TagsApart (tags : Fin d → UInt64) : Prop := ∀ i j, sortBits (tags i) = sortBits (tags j) → i = j

section Load
variable [Add V] [Inhabited V] {payload : Fin d → Vector UInt8 K} {tags : Fin d → UInt64} {m : Nat}
  {chunk sorted : List (OramBlock K V)}

/-- Blocks of keys with distinct payloads and tags. -/
def Keyed (payload : Fin d → Vector UInt8 K) (tags : Fin d → UInt64) (chunk : List (OramBlock K V)) : Prop :=
  ∀ b ∈ chunk, b.isReal = true → ∃ i, b.tag = tags i ∧ b.payload = payload i

omit [Add V] [Inhabited V] in
/-- Sorted blocks of a key are next to each other. -/
theorem grouped_of_apart (injective : Function.Injective payload) (apart : TagsApart tags) (keyed : Keyed payload tags sorted)
    (ascending : sorted.Pairwise fun a b => shardSortKey m a.tag ≤ shardSortKey m b.tag) : Grouped sorted := by
  refine grouped_of_sorted ascending fun a ha b hb c hc hab hbc har hcr pay => ?_
  obtain ⟨i, atag, apayload⟩ := keyed a ha har
  obtain ⟨j, ctag, cpayload⟩ := keyed c hc hcr
  obtain rfl : j = i := injective (cpayload.symm.trans (pay.trans apayload))
  rw [ctag, ← atag] at hbc
  have between : shardSortKey m b.tag = shardSortKey m a.tag := UInt64.le_antisymm hbc hab
  have keys := congrArg UInt64.toNat between
  have areal : a.tag ≠ 0 := OramBlock.isReal_iff.mp har
  rw [shardSortKey_toNat, shardSortKey_toNat, if_neg areal] at keys
  have alow : a.tag.toNat % 2 ^ 57 < 2 ^ 57 := Nat.mod_lt _ (by decide)
  have blow : b.tag.toNat % 2 ^ 57 < 2 ^ 57 := Nat.mod_lt _ (by decide)
  have breal : b.tag ≠ 0 := by
    intro dummy
    rw [if_pos dummy] at keys
    omega
  rw [if_neg breal] at keys
  have isReal : b.isReal = true := OramBlock.isReal_iff.mpr breal
  obtain ⟨k, btag, bpayload⟩ := keyed b hb isReal
  have same : sortBits b.tag = sortBits a.tag := by
    rw [sortBits, sortBits]
    omega
  obtain rfl := apart k j (by rw [← btag, ← atag, same])
  exact ⟨isReal, bpayload.trans apayload.symm⟩

/-- A shard's load is at most the number of the chunk's keys there. -/
theorem load_le_hits (injective : Function.Injective payload) (apart : TagsApart tags) (keyed : Keyed payload tags chunk)
    (perm : sorted.Perm chunk) (ascending : sorted.Pairwise fun a b => shardSortKey m a.tag ≤ shardSortKey m b.tag)
    {positions : Finset (Fin d)} (covers : ∀ i, payload i ∈ chunk.map OramBlock.payload → i ∈ positions) (s : Nat) :
    ((reals (reduceEqualRuns sorted)).countP fun b => shardIndexForTag b.tag m = s) ≤
      hits (fun tag => decide (shardIndexForTag tag m = s)) positions tags := by
  classical
  have nodup := reduceEqualRuns_nodup (grouped_of_apart injective apart
    (fun b hb => keyed b (perm.mem_iff.mp hb)) ascending)
  have survives : ∀ b ∈ reals (reduceEqualRuns sorted), ∃ i ∈ positions, b.tag = tags i ∧ b.payload = payload i := by
    intro b hb
    obtain ⟨a, ha, same⟩ := known_of_reduced perm hb
    obtain ⟨tag, pay⟩ := Prod.mk.inj same
    obtain ⟨ha, har⟩ := mem_reals.mp ha
    obtain ⟨i, atag, apayload⟩ := keyed a ha har
    refine ⟨i, covers i ?_, tag.symm.trans atag, pay.symm.trans apayload⟩
    rw [← apayload]
    exact List.mem_map_of_mem ha
  let loaded := (reals (reduceEqualRuns sorted)).filter fun b => shardIndexForTag b.tag m = s
  have distinct : (loaded.map OramBlock.payload).Nodup := nodup.sublist (List.filter_sublist.map _)
  have inside : (loaded.map OramBlock.payload).toFinset ⊆
      (positions.filter fun i => decide (shardIndexForTag (tags i) m = s) = true).image payload := by
    intro p hp
    obtain ⟨b, hb, rfl⟩ := List.mem_map.mp (List.mem_toFinset.mp hp)
    obtain ⟨hb, here⟩ := List.mem_filter.mp hb
    obtain ⟨i, position, tag, pay⟩ := survives b hb
    exact Finset.mem_image.mpr ⟨i, Finset.mem_filter.mpr ⟨position, tag ▸ here⟩, pay.symm⟩
  calc ((reals (reduceEqualRuns sorted)).countP fun b => shardIndexForTag b.tag m = s)
      = (loaded.map OramBlock.payload).length := by rw [List.countP_eq_length_filter, List.length_map]
    _ = (loaded.map OramBlock.payload).toFinset.card := (List.toFinset_card_of_nodup distinct).symm
    _ ≤ hits (fun tag => decide (shardIndexForTag tag m = s)) positions tags :=
      (Finset.card_le_card inside).trans Finset.card_image_le

/-- A frontend that panics has more of its keys in one shard than the sub-quota. -/
theorem hits_of_overflow (injective : Function.Injective payload) (apart : TagsApart tags) (keyed : Keyed payload tags chunk)
    (some : m ≠ 0) {positions : Finset (Fin d)} (covers : ∀ i, payload i ∈ chunk.map OramBlock.payload → i ∈ positions)
    {q : Nat} {e : Panic} (run : processSubBatch chunk m q = .error e) :
    ∃ s < m, q + 1 ≤ hits (fun tag => decide (shardIndexForTag tag m = s)) positions tags := by
  obtain ⟨sorted, rest, perm, ascending, dummies, reduced⟩ := sortReduceCompact_eq chunk
    fun block => shardSortKey m block.tag
  have survivors := survivors_of_sorted perm ascending
  rcases @processSubBatch_run K V _ _ chunk m q _ _ some survivors.real dummies reduced with
    ⟨-, frontend, run', -⟩ | ⟨overflow, -⟩
  · exact nomatch run'.symm.trans run
  · obtain ⟨s, hs, above⟩ : ∃ s < m,
        q < (reals (reduceEqualRuns sorted)).countP fun b => shardIndexForTag b.tag m = s := by
      by_contra none
      exact overflow fun s hs => Nat.le_of_not_lt fun above => none ⟨s, hs, above⟩
    exact ⟨s, hs, above.trans_le (load_le_hits injective apart keyed perm ascending covers s)⟩

end Load
section Tags

/-- Every shard is equally likely. -/
theorem rate_shardIndexForTag {k : Nat} (few : k ≤ 32) {s : Nat} (hs : s < 2 ^ k) :
    Tape.rate (fun tag => decide (shardIndexForTag tag (2 ^ k) = s)) = 1 / (2 ^ k : Nat) := by
  refine rate_class (fun tag => shardIndexForTag_lt tag (Nat.two_pow_pos k).ne') (fun c hc c' hc' => ?_) hs
  have small : c ^^^ c' < 2 ^ k := Nat.xor_lt_two_pow hc hc'
  have word : c ^^^ c' < 2 ^ 32 := small.trans_le (Nat.pow_le_pow_right Nat.two_pos few)
  have moved : (UInt64.ofNat (c ^^^ c') <<< 32 >>> 32).toNat = c ^^^ c' := by
    have amount : (32 : UInt64).toNat % 64 = 32 := rfl
    rw [UInt64.toNat_shiftRight, UInt64.toNat_shiftLeft, UInt64.toNat_ofNat_of_lt' (word.trans (by decide)), amount,
      Nat.shiftLeft_eq, Nat.shiftRight_eq_div_pow]
    omega
  refine ⟨(· ^^^ UInt64.ofNat (c ^^^ c') <<< 32), fun a b same => (UInt64.xor_left_inj _).mp same, fun tag here => ?_⟩
  have here : (tag >>> 32).toNat &&& (2 ^ k - 1) = c := here
  change ((tag ^^^ UInt64.ofNat (c ^^^ c') <<< 32) >>> 32).toNat &&& (2 ^ k - 1) = c'
  rw [UInt64.shiftRight_xor, UInt64.toNat_xor, moved, Nat.and_xor_distrib_right, here,
    Nat.and_two_pow_sub_one_of_lt_two_pow small, ← Nat.xor_assoc, Nat.xor_self, Nat.zero_xor]

/-- The bits of the sort key are equally likely too. -/
theorem rate_sortBits {c : Nat} (hc : c < 2 ^ 57) : Tape.rate (fun tag => decide (sortBits tag = c)) = 1 / (2 ^ 57 : Nat) := by
  refine rate_class (fun tag => Nat.mod_lt _ (Nat.two_pow_pos 57)) (fun c hc c' hc' => ?_) hc
  have small : c ^^^ c' < 2 ^ 57 := Nat.xor_lt_two_pow hc hc'
  refine ⟨(· ^^^ UInt64.ofNat (c ^^^ c')), fun a b same => (UInt64.xor_left_inj _).mp same, fun tag here => ?_⟩
  have here : tag.toNat % 2 ^ 57 = c := here
  change (tag ^^^ UInt64.ofNat (c ^^^ c')).toNat % 2 ^ 57 = c'
  rw [UInt64.toNat_xor, UInt64.toNat_ofNat_of_lt' (small.trans (by decide)), Nat.xor_mod_two_pow, here,
    Nat.mod_eq_of_lt small, ← Nat.xor_assoc, Nat.xor_self, Nat.zero_xor]

theorem prob_not_tagsApart (d : Nat) :
    Tape.prob (fun tags : Fin d → UInt64 => ¬ TagsApart tags) ≤ d.choose 2 / (2 ^ 57 : Nat) := by
  have inside : ∀ tag, sortBits tag < 2 ^ 57 := fun tag => Nat.mod_lt _ (Nat.two_pow_pos 57)
  refine (Tape.prob_mono fun tags close => ?_).trans (prob_collision inside fun c hc => rate_sortBits hc)
  by_contra none
  refine close fun i j same => ?_
  rcases lt_trichotomy i j with before | equal | after
  · exact absurd ⟨j, i, before, same⟩ none
  · exact equal
  · exact absurd ⟨i, j, after, same.symm⟩ none

end Tags

section Batch
variable {payload : Fin d → Vector UInt8 K} {batch : List (Vector UInt8 K)} {n subN : Nat} {Shard : Type}

/-- The payloads in the slots of a padded batch. -/
def paddedPayloads (batch : List (Vector UInt8 K)) (n : Nat) : List (Vector UInt8 K) :=
  batch ++ List.replicate (n - batch.length) (Vector.replicate K 0)

/-- The keys in a chunk, which do not depend on their tags. -/
def chunkKeys (payload : Fin d → Vector UInt8 K) (batch : List (Vector UInt8 K)) (n subN c : Nat) : Finset (Fin d) :=
  Finset.univ.filter fun i => payload i ∈ bucketAt subN ((paddedPayloads batch n).take n) c

theorem card_chunkKeys (injective : Function.Injective payload) (c : Nat) :
    (chunkKeys payload batch n subN c).card ≤ subN := by
  classical
  let slots := bucketAt subN ((paddedPayloads batch n).take n) c
  have inside : (chunkKeys payload batch n subN c).image payload ⊆ slots.toFinset := by
    intro p hp
    obtain ⟨i, hi, rfl⟩ := Finset.mem_image.mp hp
    exact List.mem_toFinset.mpr (Finset.mem_filter.mp hi).2
  calc (chunkKeys payload batch n subN c).card = ((chunkKeys payload batch n subN c).image payload).card :=
        (Finset.card_image_of_injective _ injective).symm
    _ ≤ slots.toFinset.card := Finset.card_le_card inside
    _ ≤ slots.length := slots.toFinset_card_le
    _ ≤ subN := List.length_take_le _ _

/-- A frontend has more than `q` keys of its chunk in one shard. -/
def Crowded (payload : Fin d → Vector UInt8 K) (m f q n : Nat) (batch : List (Vector UInt8 K))
    (tags : Fin d → UInt64) : Prop :=
  ∃ c < f, ∃ s < m, q + 1 ≤ hits (fun tag => decide (shardIndexForTag tag m = s)) (chunkKeys payload batch n (n / f) c) tags

theorem prob_crowded_le (injective : Function.Injective payload) {k : Nat} (few : k ≤ 32) (f q n : Nat)
    (batch : List (Vector UInt8 K)) : Tape.prob (Crowded payload (2 ^ k) f q n batch) ≤
      f * ((2 ^ k : Nat) * Binomial.upperTail (n / f) (1 / ((2 ^ k : Nat) : ℝ)) (q + 1)) := by
  have shard : ∀ c s, s < 2 ^ k → Tape.prob (fun tags : Fin d → UInt64 => q + 1 ≤
      hits (fun tag => decide (shardIndexForTag tag (2 ^ k) = s)) (chunkKeys payload batch n (n / f) c) tags) ≤
        Binomial.upperTail (n / f) (1 / ((2 ^ k : Nat) : ℝ)) (q + 1) := by
    intro c s hs
    rw [← rate_shardIndexForTag few hs]
    exact prob_hits_ge_le (card_chunkKeys injective c) (q + 1)
  exact Tape.prob_exists_le _ f fun c _ => Tape.prob_exists_le _ (2 ^ k) fun s hs => shard c s hs

/-- The least sub-quota in its range, or one that no shard can overflow, keeps the union bound over shards and frontends. -/
theorem suggested_bound (n : Nat) {m f bits : Nat} (shards : 1 ≤ m) (some : 1 ≤ f) (word : f < 2 ^ 64)
    (fits : bits + Nat.clog 2 f ≤ 2 ^ 31) :
    ∃ q, suggestedPerShardQuotaWithFrontends binomSf n m bits f = f * q ∧
      f * (m * Binomial.upperTail (n / f) (1 / (m : ℝ)) (q + 1)) ≤ tailError (n / f) * (2 : ℝ) ^ (-(bits : ℤ)) := by
  refine ⟨suggestedPerShardQuota binomSf (n / f) m (bits + Nat.clog 2 f), ?_, ?_⟩
  · rw [suggestedPerShardQuotaWithFrontends_eq binomSf n m bits some word, Nat.min_eq_left (fits.trans (by decide))]
  have unlikely : (0 : ℝ) < 1 / m := div_pos one_pos (Nat.cast_pos.mpr shards)
  have likely : 1 / (m : ℝ) ≤ 1 := div_le_one_of_le₀ (Nat.one_le_cast.mpr shards) (Nat.cast_nonneg m)
  obtain meets | whole := suggestedPerShardQuota_meets binomSf (n / f) shards fits
  · have bound := bound_of_union_bound (Nat.le_pow_clog Nat.one_lt_two f) (zpow_pos two_pos _).le meets
    have tail : ∀ q, Binomial.upperTail (n / f) (1 / (m : ℝ)) (q + 1) ≤ tailError (n / f) * binomSf (n / f) q (1 / m) :=
      fun q => (Binomial.upperTail_antitone (n / f) unlikely.le likely (Nat.le_succ q)).trans
        (binomSf_bounds unlikely likely (n / f) q).2
    generalize suggestedPerShardQuota binomSf (n / f) m (bits + Nat.clog 2 f) = q at bound
    calc (f : ℝ) * (m * Binomial.upperTail (n / f) (1 / (m : ℝ)) (q + 1))
        = f * m * Binomial.upperTail (n / f) (1 / (m : ℝ)) (q + 1) := (mul_assoc _ _ _).symm
      _ ≤ f * m * (tailError (n / f) * binomSf (n / f) q (1 / m)) := mul_le_mul_of_nonneg_left (tail q) (by positivity)
      _ = tailError (n / f) * (f * m * binomSf (n / f) q (1 / m)) := mul_left_comm _ _ _
      _ ≤ tailError (n / f) * 2 ^ (-(bits : ℤ)) :=
        mul_le_mul_of_nonneg_left bound (zero_le_one.trans (one_le_tailError _))
  · have empty : Binomial.upperTail (n / f) (1 / (m : ℝ)) (n / f + 1) = 0 := by
      rw [Binomial.upperTail, Finset.Icc_eq_empty_of_lt (Nat.lt_succ_self _), Finset.sum_empty]
    rw [whole, empty, mul_zero, mul_zero]
    exact mul_nonneg (zero_le_one.trans (one_le_tailError _)) (zpow_pos two_pos _).le

variable [Inhabited V] {router : ShardedBatchRouter Shard K V} {tags : Fin d → UInt64}

theorem padded_payloads : router.padded.map OramBlock.payload =
    paddedPayloads (router.pending.map OramBlock.payload) router.batchCapacity := by
  rw [ShardedBatchRouter.padded_eq, List.map_append, List.map_replicate, paddedPayloads, List.length_map]
  rfl

theorem Keyed.padded (keyed : Keyed payload tags router.pending) : Keyed payload tags router.padded := by
  intro b hb real
  rw [ShardedBatchRouter.padded_eq] at hb
  rcases List.mem_append.mp hb with hb | hb
  · exact keyed b hb real
  · obtain rfl := List.eq_of_mem_replicate hb
    exact absurd real Bool.false_ne_true

variable [Add V] {m q : Nat}

omit [Inhabited V] [Add V] in
theorem mem_chunksOf {T : Type} {size count : Nat} {xs chunk : List T} (member : chunk ∈ (chunksOf size xs).take count) :
    ∃ c < count, chunk = bucketAt size xs c := by
  rw [chunksOf, ← List.map_take, List.take_range] at member
  obtain ⟨c, hc, rfl⟩ := List.mem_map.mp member
  exact ⟨c, (List.mem_range.mp hc).trans_le (min_le_left _ _), rfl⟩

theorem processChunks_error {frontends : List (RouterFrontend K V)} {chunks : List (List (OramBlock K V))} {e : Panic}
    (run : ShardedBatchRouter.processChunks m q frontends chunks = .error e) :
    ∃ chunk ∈ chunks.take frontends.length, processSubBatch chunk m q = .error e := by
  induction frontends generalizing chunks with
  | nil => exact nomatch run
  | cons frontend frontends ih =>
    cases chunks with
    | nil => exact nomatch run
    | cons chunk chunks =>
      rw [ShardedBatchRouter.processChunks] at run
      cases first : processSubBatch chunk m q with
      | error e' =>
        rw [first] at run
        obtain rfl : e' = e := Except.error.inj run
        exact ⟨chunk, .head _, first⟩
      | ok frontend' =>
        rw [first] at run
        cases rest : ShardedBatchRouter.processChunks m q frontends chunks with
        | error e' =>
          change (ShardedBatchRouter.processChunks m q frontends chunks >>= fun r => pure (frontend' :: r)) = _ at run
          rw [rest] at run
          obtain rfl : e' = e := Except.error.inj run
          obtain ⟨chunk', member, failed⟩ := ih rest
          exact ⟨chunk', .tail _ member, failed⟩
        | ok frontends' =>
          change (ShardedBatchRouter.processChunks m q frontends chunks >>= fun r => pure (frontend' :: r)) = _ at run
          rw [rest] at run
          exact nomatch run

/-- A routing phase that fails has a frontend that found too many keys of its chunk in one shard. -/
theorem crowded_of_routeBatch_error (injective : Function.Injective payload) (apart : TagsApart tags)
    (keyed : Keyed payload tags router.pending) (formed : router.Formed) (some : router.shardCount ≠ 0) {f : Nat}
    (frontends : router.frontendCount = f) (quota : router.perShardQuota = f * q) (full : router.batchCapacity / f ≠ 0)
    {e : Panic} (run : router.routeBatch router.padded = .error e) :
    Crowded payload router.shardCount f q router.batchCapacity (router.pending.map OramBlock.payload) tags := by
  rw [(routeBatch_subQuota formed frontends quota _).2, if_neg full] at run
  obtain ⟨chunk, member, failed⟩ := processChunks_error run
  rw [formed.frontends.trans frontends] at member
  obtain ⟨c, hc, rfl⟩ := mem_chunksOf member
  have part : (bucketAt (router.batchCapacity / f) (router.padded.take router.batchCapacity) c).Sublist router.padded :=
    ((List.take_sublist _ _).trans (List.drop_sublist _ _)).trans (List.take_sublist _ _)
  refine ⟨c, hc, hits_of_overflow injective apart (fun b hb => keyed.padded b (part.subset hb)) some (fun i hi => ?_) failed⟩
  rw [bucketAt, List.map_take, List.map_drop, List.map_take, padded_payloads] at hi
  exact Finset.mem_filter.mpr ⟨Finset.mem_univ i, hi⟩

end Batch

end Roga
