import Roga.Sharded.Delivery

/-! A flush passes on the updates that lie in the frontends' chunks, and removes
the whole batch. -/
namespace Roga
open Ct Reals ObliviousHistogram
variable {Shard : Type} {K : Nat} {V : Type}

namespace ShardedBatchRouter

/-- The sizes that every operation keeps. -/
structure Formed (router : ShardedBatchRouter Shard K V) : Prop where
  shards : router.shardCount = router.shards.length
  frontends : router.frontends.length = router.frontendCount
  frontend : 0 < router.frontendCount

section Cases
variable [Add V] [Inhabited V] {router router' : ShardedBatchRouter Shard K V}
  {processBatchChunk : Shard → List (OramBlock K V) → Except Panic Unit × Shard}

omit [Add V] in
theorem newWithFrontends_formed (shards : List Shard) (batchSize perShardQuota frontendCount : Nat) (prf : Aes128) :
    (newWithFrontends shards batchSize perShardQuota frontendCount prf : ShardedBatchRouter Shard K V).Formed :=
  ⟨rfl, List.length_replicate, Nat.lt_of_lt_of_le Nat.one_pos (Nat.le_max_right _ _)⟩

/-- The pending updates with the dummies that fill up the batch. -/
def padded (router : ShardedBatchRouter Shard K V) : List (OramBlock K V) :=
  if router.pending.length < router.batchCapacity then resizeBlocks router.pending router.batchCapacity
  else router.pending

/-- The updates in the frontends' chunks. -/
def covered (router : ShardedBatchRouter Shard K V) : List (OramBlock K V) :=
  router.pending.take (router.frontendCount * (router.batchCapacity / router.frontendCount))

/-- The updates of the batch past the last frontend's chunk. -/
def leftOver (router : ShardedBatchRouter Shard K V) : List (OramBlock K V) :=
  (router.pending.take router.batchCapacity).drop
    (router.frontendCount * (router.batchCapacity / router.frontendCount))

omit [Add V] in
theorem padded_eq (router : ShardedBatchRouter Shard K V) : router.padded =
    router.pending ++ List.replicate (router.batchCapacity - router.pending.length) OramBlock.dummy := by
  rw [padded]
  split
  · rename_i short
    rw [resizeBlocks, List.take_of_length_le short.le]
  · rename_i long
    rw [Nat.sub_eq_zero_of_le (Nat.le_of_not_lt long), List.replicate_zero, List.append_nil]

omit [Add V] in
theorem padded_length (router : ShardedBatchRouter Shard K V) : router.batchCapacity ≤ router.padded.length := by
  rw [padded_eq, List.length_append, List.length_replicate]
  omega

omit [Add V] in
/-- The router that a flush pads before it routes. -/
theorem pad_eq (router : ShardedBatchRouter Shard K V) : (if router.pending.length < router.batchCapacity then
    { router with pending := resizeBlocks router.pending router.batchCapacity } else router) =
      { router with pending := router.padded } := by
  rw [padded]
  split <;> rfl

/-- The state a flush leaves when routing panics. -/
theorem flush_of_route_error {e : Panic} (some : router.pending ≠ [])
    (route : router.routeBatch router.padded = .error e) :
    router.flush processBatchChunk = (.error e, { router with pending := router.padded }) := by
  rw [flush, if_neg some]
  simp only [pad_eq]
  rw [show ({ router with pending := router.padded } : ShardedBatchRouter Shard K V).routeBatch router.padded =
    .error e from route]

/-- The state a flush leaves when routing succeeds. -/
theorem flush_of_route_ok {frontends : List (RouterFrontend K V)} (some : router.pending ≠ [])
    (route : router.routeBatch router.padded = .ok frontends) :
    router.flush processBatchChunk =
      match processShards processBatchChunk frontends (router.perShardQuota / router.frontends.length) 0 router.shards with
      | (.error e, shards) => (.error e, { router with pending := router.padded, frontends, shards })
      | (.ok (), shards) => (.ok (), { router with
          pending := router.pending.drop router.batchCapacity, frontends, shards }) := by
  have rest : (if router.padded.length = router.batchCapacity then [] else router.padded.drop router.batchCapacity) =
      router.pending.drop router.batchCapacity := by
    rw [padded_eq, List.drop_append, List.drop_replicate]
    have size : (router.pending ++ List.replicate (router.batchCapacity - router.pending.length)
      (OramBlock.dummy : OramBlock K V)).length = max router.pending.length router.batchCapacity := by
      rw [List.length_append, List.length_replicate]
      omega
    rw [size, Nat.sub_self, List.replicate_zero, List.append_nil]
    split
    · rw [List.drop_eq_nil_of_le (by omega)]
    · rfl
  rw [flush, if_neg some]
  simp only [pad_eq]
  rw [show ({ router with pending := router.padded } : ShardedBatchRouter Shard K V).routeBatch router.padded =
    .ok frontends from route]
  dsimp only
  generalize processShards processBatchChunk frontends (router.perShardQuota / router.frontends.length) 0
    router.shards = outcome
  rcases outcome with ⟨_ | _, shards⟩
  · rfl
  · simp only [rest]

/-- A flush that returns has routed its batch and passed it on, or had nothing to do. -/
theorem flush_ok (run : router.flush processBatchChunk = (.ok (), router')) :
    (router.pending = [] ∧ router' = router) ∨
    (router.pending ≠ [] ∧ ∃ frontends shards, router.routeBatch router.padded = .ok frontends ∧
      processShards processBatchChunk frontends (router.perShardQuota / router.frontends.length) 0 router.shards =
        (.ok (), shards) ∧
      router' = { router with pending := router.pending.drop router.batchCapacity, frontends, shards }) := by
  by_cases some : router.pending = []
  · rw [flush, if_pos some, Prod.mk.injEq] at run
    exact .inl ⟨some, run.2.symm⟩
  · refine .inr ⟨some, ?_⟩
    cases route : router.routeBatch router.padded with
    | error e =>
      rw [flush_of_route_error some route] at run
      exact nomatch run
    | ok frontends =>
      rw [flush_of_route_ok some route] at run
      rcases h : processShards processBatchChunk frontends (router.perShardQuota / router.frontends.length) 0
        router.shards with ⟨_ | _, shards⟩
      · rw [h] at run
        exact nomatch run
      · rw [h] at run
        exact ⟨frontends, shards, rfl, h, (Prod.mk.inj run).2.symm⟩

omit [Add V] [Inhabited V] in
theorem processShards_length {frontends : List (RouterFrontend K V)} {subQuota s : Nat} {shards shards' : List Shard}
    {outcome : Except Panic Unit}
    (run : processShards processBatchChunk frontends subQuota s shards = (outcome, shards')) :
    shards'.length = shards.length := by
  induction shards generalizing s shards' outcome with
  | nil =>
    obtain ⟨-, rfl⟩ := Prod.mk.inj run
    rfl
  | cons shard shards ih =>
    rw [processShards] at run
    split at run
    · obtain ⟨-, rfl⟩ := Prod.mk.inj run
      rw [List.length_cons, List.length_cons, ih rfl]
    · obtain ⟨-, rfl⟩ := Prod.mk.inj run
      rfl

end Cases

section Route
variable [Add V] [Inhabited V] {router : ShardedBatchRouter Shard K V}

theorem processChunks_ok {shardCount subQuota : Nat} {frontends frontends' : List (RouterFrontend K V)}
    {chunks : List (List (OramBlock K V))} (enough : frontends.length ≤ chunks.length)
    (run : processChunks shardCount subQuota frontends chunks = .ok frontends') :
    List.Forall₂ (fun chunk frontend => processSubBatch chunk shardCount subQuota = .ok frontend)
      (chunks.take frontends.length) frontends' := by
  induction frontends generalizing chunks frontends' with
  | nil =>
    obtain rfl := Except.ok.inj run
    exact .nil
  | cons frontend frontends ih =>
    cases chunks with
    | nil => exact absurd enough (Nat.not_succ_le_zero _)
    | cons chunk chunks =>
      obtain ⟨first, hfirst, run⟩ := bind_ok run
      obtain ⟨rest, hrest, rfl⟩ := map_ok run
      exact .cons hfirst (ih (Nat.le_of_succ_le_succ enough) hrest)

/-- Each frontend has processed its chunk of the batch. -/
theorem routeBatch_ok {batch : List (OramBlock K V)} {frontends : List (RouterFrontend K V)}
    (full : router.batchCapacity ≤ batch.length) (run : router.routeBatch batch = .ok frontends) :
    0 < router.batchCapacity / router.frontends.length ∧
    List.Forall₂ (fun i frontend => processSubBatch
      (bucketAt (router.batchCapacity / router.frontends.length) batch i) router.shardCount
      (router.perShardQuota / router.frontends.length) = .ok frontend) (List.range router.frontends.length) frontends := by
  rw [routeBatch] at run
  split at run
  · exact nomatch run
  rename_i some
  have pos : 0 < router.batchCapacity / router.frontends.length := Nat.pos_of_ne_zero some
  have room : router.frontends.length * (router.batchCapacity / router.frontends.length) ≤ router.batchCapacity :=
    Nat.mul_div_le _ _
  refine ⟨pos, ?_⟩
  generalize router.batchCapacity / router.frontends.length = subN at *
  have size : (batch.take router.batchCapacity).length = router.batchCapacity := List.length_take_of_le full
  have enough : router.frontends.length ≤ (chunksOf subN (batch.take router.batchCapacity)).length := by
    rw [chunksOf, List.length_map, List.length_range, size, Nat.le_div_iff_mul_le pos]
    omega
  have chunks := processChunks_ok enough run
  have first : (chunksOf subN (batch.take router.batchCapacity)).take router.frontends.length =
      (List.range router.frontends.length).map (bucketAt subN batch) := by
    rw [chunksOf] at enough ⊢
    rw [List.length_map, List.length_range] at enough
    rw [← List.map_take, List.take_range, min_eq_left enough]
    refine List.map_congr_left fun i hi => ?_
    have fits := bucket_fits (Z := subN) (List.mem_range.mp hi)
    nth_rewrite 2 [← List.take_append_drop router.batchCapacity batch]
    exact (bucketAt_append (by omega) _).symm
  rw [first, List.forall₂_map_left_iff] at chunks
  exact chunks

end Route

section Recording

/-- A shard that keeps the blocks it has been given. -/
def recording (processBatchChunk : Shard → List (OramBlock K V) → Except Panic Unit × Shard)
    (shard : Shard × List (OramBlock K V)) (chunk : List (OramBlock K V)) :
    Except Panic Unit × (Shard × List (OramBlock K V)) :=
  let (outcome, next) := processBatchChunk shard.1 chunk
  (outcome, (next, shard.2 ++ chunk))

variable {processBatchChunk : Shard → List (OramBlock K V) → Except Panic Unit × Shard}

theorem processShard_recording {shard shard' : Shard × List (OramBlock K V)} {chunks : List (List (OramBlock K V))}
    (run : processShard (recording processBatchChunk) shard chunks = (.ok (), shard')) :
    shard'.2 = shard.2 ++ chunks.flatten := by
  induction chunks generalizing shard with
  | nil =>
    obtain ⟨-, rfl⟩ := Prod.mk.inj run
    exact (List.append_nil _).symm
  | cons chunk chunks ih =>
    rw [processShard] at run
    split at run
    · rename_i next hnext
      have kept : next.2 = shard.2 ++ chunk := by
        rw [recording] at hnext
        exact (congrArg Prod.snd (Prod.mk.inj hnext).2).symm
      rw [ih run, kept, List.flatten_cons, List.append_assoc]
    · exact nomatch run

theorem processShards_recording {frontends : List (RouterFrontend K V)} {subQuota s : Nat}
    {shards shards' : List (Shard × List (OramBlock K V))} (fresh : ∀ shard ∈ shards, shard.2 = [])
    (run : processShards (recording processBatchChunk) frontends subQuota s shards = (.ok (), shards')) :
    shards'.flatMap Prod.snd =
      (List.range shards.length).flatMap fun i => (shardChunks frontends subQuota (s + i)).flatten := by
  induction shards generalizing s shards' with
  | nil =>
    obtain ⟨-, rfl⟩ := Prod.mk.inj run
    rfl
  | cons shard shards ih =>
    rw [processShards] at run
    split at run
    · rename_i next hnext
      rcases rest : processShards (recording processBatchChunk) frontends subQuota (s + 1) shards with ⟨_ | _, tail⟩
      · rw [rest] at run
        exact nomatch run
      · rw [rest] at run
        obtain ⟨-, rfl⟩ := Prod.mk.inj run
        rw [List.flatMap_cons, processShard_recording hnext, fresh shard (.head _), List.nil_append,
          ih (fun shard h => fresh shard (.tail _ h)) rest, List.length_cons, List.range_succ_eq_map,
          List.flatMap_cons, List.flatMap_map, Nat.add_zero]
        congr 1
        exact List.flatMap_congr fun i _ => by rw [Nat.succ_eq_add_one, Nat.add_assoc, Nat.add_comm 1]
    · exact nomatch run

/-- A panic of the shards is a panic of one call. -/
theorem processShards_error {frontends : List (RouterFrontend K V)} {subQuota s : Nat} {shards shards' : List Shard}
    {e : Panic} (run : processShards processBatchChunk frontends subQuota s shards = (.error e, shards')) :
    ∃ shard chunk, (processBatchChunk shard chunk).1 = .error e := by
  have call : ∀ {chunks : List (List (OramBlock K V))} {shard shard' : Shard},
      processShard processBatchChunk shard chunks = (.error e, shard') →
        ∃ shard chunk, (processBatchChunk shard chunk).1 = .error e := by
    intro chunks
    induction chunks with
    | nil => exact fun run => nomatch run
    | cons chunk chunks ih =>
      intro shard shard' run
      rw [processShard] at run
      split at run
      · exact ih run
      · rename_i e' next hnext
        exact ⟨shard, chunk, (congrArg Prod.fst hnext).trans (Prod.mk.inj run).1⟩
  induction shards generalizing s shards' with
  | nil => exact nomatch run
  | cons shard shards ih =>
    rw [processShards] at run
    split at run
    · rcases rest : processShards processBatchChunk frontends subQuota (s + 1) shards with ⟨_ | _, tail⟩
      · rw [rest] at run
        obtain ⟨same, -⟩ := Prod.mk.inj run
        exact ih (same ▸ rest)
      · rw [rest] at run
        exact nomatch run
    · rename_i e' next hnext
      obtain ⟨same, -⟩ := Prod.mk.inj run
      exact call (same ▸ hnext)

end Recording

section Sums
variable [AddCommSemigroup V] [Inhabited V]

theorem flatMap_swap {ι κ T : Type} (is : List ι) (js : List κ) (f : ι → κ → List T) :
    (is.flatMap fun i => js.flatMap (f i)).Perm (js.flatMap fun j => is.flatMap fun i => f i j) := by
  induction is with
  | nil => simp
  | cons i is ih =>
    simp only [List.flatMap_cons]
    exact (ih.append_left _).trans (List.flatMap_append_perm _ _ _)

omit [Inhabited V] in
/-- The shards receive together what the frontends have routed. -/
theorem mass_shardChunks {M : Type} [AddCommSemigroup M] (f : V →ₙ+ M) (p : Vector UInt8 K)
    {frontends : List (RouterFrontend K V)} {subQuota shardCount : Nat}
    (sizes : ∀ frontend ∈ frontends, frontend.routerBlocks.length = shardCount * subQuota) :
    mass f p ((List.range shardCount).flatMap fun s => (shardChunks frontends subQuota s).flatten) =
      mass f p (frontends.flatMap RouterFrontend.routerBlocks) := by
  have chunks : ∀ s, (shardChunks frontends subQuota s).flatten =
      frontends.flatMap fun frontend => bucketAt subQuota frontend.routerBlocks s := fun s => by
    rw [shardChunks, List.flatMap_def]
  have whole : (frontends.flatMap fun frontend => (List.range shardCount).flatMap fun s =>
      bucketAt subQuota frontend.routerBlocks s) = frontends.flatMap RouterFrontend.routerBlocks :=
    List.flatMap_congr fun frontend hf => flatMap_bucketAt (sizes frontend hf)
  simp only [chunks]
  rw [mass_perm p (flatMap_swap _ _ _), whole]

section Routed
variable {ι : Type} {shardCount subQuota : Nat} {chunk : ι → List (OramBlock K V)} {is : List ι}
  {frontends : List (RouterFrontend K V)}
  (processed : List.Forall₂ (fun i frontend => processSubBatch (chunk i) shardCount subQuota = .ok frontend) is frontends)
include processed

theorem routed_length : ∀ frontend ∈ frontends, frontend.routerBlocks.length = shardCount * subQuota := by
  induction processed with
  | nil => exact fun _ h => absurd h List.not_mem_nil
  | cons done _ ih => exact List.forall_mem_cons.mpr ⟨(processSubBatch_ok done).2.1, ih⟩

theorem routed_mass {M : Type} [AddCommSemigroup M] (f : V →ₙ+ M) (p : Vector UInt8 K) :
    frontends.map (fun frontend => mass f p frontend.routerBlocks) = is.map fun i => mass f p (chunk i) := by
  induction processed with
  | nil => rfl
  | cons done _ ih => rw [List.map_cons, List.map_cons, ih, ← (processSubBatch_ok done).2.2.1.mass, mass_reals]

end Routed

variable {router : ShardedBatchRouter Shard K V}

/-- The frontends together keep every mass of the part of the batch they cover. -/
theorem routeBatch_mass {M : Type} [AddCommSemigroup M] (f : V →ₙ+ M) (p : Vector UInt8 K) (formed : router.Formed)
    {frontends : List (RouterFrontend K V)} (run : router.routeBatch router.padded = .ok frontends) :
    mass f p ((List.range router.shards.length).flatMap fun s =>
      (shardChunks frontends (router.perShardQuota / router.frontends.length) s).flatten) =
        mass f p router.covered := by
  obtain ⟨-, processed⟩ := routeBatch_ok router.padded_length run
  have sizes : ∀ frontend ∈ frontends, frontend.routerBlocks.length =
      router.shards.length * (router.perShardQuota / router.frontends.length) := fun frontend hf => by
    rw [routed_length processed frontend hf, formed.shards]
  have dummies : ∀ n, mass f p (List.replicate n (OramBlock.dummy : OramBlock K V)) = 0 := fun n => by
    rw [← mass_reals, reals_replicate_dummy, mass_nil]
  rw [mass_shardChunks f p sizes, mass_flatMap, routed_mass processed f p, ← mass_flatMap, flatMap_bucketAt_take, covered,
    formed.frontends, padded_eq, List.take_append, mass_append, List.take_replicate, dummies, add_zero]

end Sums
end ShardedBatchRouter

section Claim
open ShardedBatchRouter
variable [AddCommSemigroup V] [Inhabited V]
  {processBatchChunk : Shard → List (OramBlock K V) → Except Panic Unit × Shard}
  {router router' : ShardedBatchRouter (Shard × List (OramBlock K V)) K V}

omit [Inhabited V] in
theorem payloadSum_append (p : Vector UInt8 K) (xs ys : List (OramBlock K V)) :
    payloadSum p (xs ++ ys) = payloadSum p xs + payloadSum p ys := by
  rw [payloadSum_eq, payloadSum_eq, payloadSum_eq, mass_append, map_add]

omit [Inhabited V] in
theorem payloadSum_batch (router : ShardedBatchRouter Shard K V) (p : Vector UInt8 K) :
    payloadSum p (router.pending.take router.batchCapacity) =
      payloadSum p router.covered + payloadSum p router.leftOver := by
  have room : router.frontendCount * (router.batchCapacity / router.frontendCount) ≤ router.batchCapacity :=
    Nat.mul_div_le _ _
  have front : (router.pending.take router.batchCapacity).take
      (router.frontendCount * (router.batchCapacity / router.frontendCount)) = router.covered := by
    rw [List.take_take, min_eq_left room, covered]
  rw [leftOver, ← front, ← payloadSum_append, List.take_append_drop]

omit [Inhabited V] in
theorem payloadSum_ne_zero {b : OramBlock K V} {blocks : List (OramBlock K V)} (hb : b ∈ blocks)
    (real : b.isReal = true) : payloadSum b.payload blocks ≠ 0 := by
  have here : b ∈ (reals blocks).filter fun c => c.payload = b.payload :=
    List.mem_filter.mpr ⟨mem_reals.mpr ⟨hb, real⟩, by simp⟩
  rw [payloadSum]
  cases held : (reals blocks).filter fun c => c.payload = b.payload with
  | nil => exact absurd here (held ▸ List.not_mem_nil)
  | cons c blocks =>
    rw [List.map_cons, sumOf_cons]
    exact WithZero.coe_ne_zero

/-- The blocks that a flush passes on sum to the updates its chunks cover. -/
theorem flush_passes (formed : router.Formed) (fresh : ∀ shard ∈ router.shards, shard.2 = [])
    (run : router.flush (recording processBatchChunk) = (.ok (), router')) (p : Vector UInt8 K) :
    payloadSum p (router'.shards.flatMap Prod.snd) = payloadSum p router.covered ∧
      router'.pending = router.pending.drop router.batchCapacity := by
  rcases flush_ok run with ⟨none, rfl⟩ | ⟨-, frontends, shards, route, processed, rfl⟩
  · have logs : router'.shards.flatMap Prod.snd = [] := List.flatMap_eq_nil_iff.mpr fresh
    rw [logs, covered, none, List.take_nil, List.drop_nil]
    exact ⟨rfl, rfl⟩
  · refine ⟨?_, rfl⟩
    have passed := processShards_recording fresh processed
    simp only [Nat.zero_add] at passed
    change payloadSum p (shards.flatMap Prod.snd) = _
    rw [passed, payloadSum_eq, payloadSum_eq, routeBatch_mass _ p formed route]

/-- A flush that returns passes on the sums of its whole batch exactly when the updates past the
last frontend's chunk add nothing, as when the frontends divide the batch evenly; it removes the
batch. A flush that panics in a frontend has changed no shard. -/
theorem flush_passes_batch_iff (formed : router.Formed) (fresh : ∀ shard ∈ router.shards, shard.2 = []) :
    (∀ router', router.flush (recording processBatchChunk) = (.ok (), router') →
      ((∀ p, payloadSum p (router'.shards.flatMap Prod.snd) =
          payloadSum p (router.pending.take router.batchCapacity)) ∧
        router'.pending = router.pending.drop router.batchCapacity ↔
      ∀ p, payloadSum p router.covered + payloadSum p router.leftOver = payloadSum p router.covered)) ∧
    ((router.frontendCount ∣ router.batchCapacity ∨ ∀ b ∈ router.leftOver, b.isReal = false) →
      ∀ p, payloadSum p router.covered + payloadSum p router.leftOver = payloadSum p router.covered) ∧
    (∀ b ∈ router.leftOver, b.isReal = true → (∀ c ∈ router.covered, c.isReal = true → c.payload ≠ b.payload) →
      payloadSum b.payload router.covered + payloadSum b.payload router.leftOver ≠
        payloadSum b.payload router.covered) ∧
    ((∀ shard chunk load quota, (processBatchChunk shard chunk).1 ≠ .error (.shardBatchOverflow load quota)) →
      ∀ load quota router', router.flush (recording processBatchChunk) =
        (.error (.shardBatchOverflow load quota), router') → router'.shards = router.shards) := by
  refine ⟨fun router' run => ?_, fun even p => ?_, fun b hb real alone same => ?_, fun silent load quota router' run => ?_⟩
  · have passes := flush_passes formed fresh run
    simp only [payloadSum_batch, (passes _).1]
    exact ⟨fun both p => (both.1 p).symm, fun none => ⟨fun p => (none p).symm, (passes default).2⟩⟩
  · have dummies : ∀ b ∈ router.leftOver, b.isReal = false := by
      rcases even with even | dummies
      · intro b hb
        rw [leftOver, Nat.mul_div_cancel' even, List.drop_eq_nil_of_le (List.length_take_le _ _)] at hb
        exact absurd hb List.not_mem_nil
      · exact dummies
    rw [payloadSum_eq p router.leftOver, mass_of_dummies p dummies, map_zero, add_zero]
  · rw [payloadSum_eq b.payload router.covered, mass_eq_zero.mpr alone, map_zero, zero_add] at same
    exact payloadSum_ne_zero hb real same
  · by_cases none : router.pending = []
    · rw [ShardedBatchRouter.flush, if_pos none] at run
      exact nomatch run
    cases route : router.routeBatch router.padded with
    | error e =>
      rw [flush_of_route_error none route] at run
      obtain ⟨-, rfl⟩ := Prod.mk.inj run
      rfl
    | ok frontends =>
      rw [flush_of_route_ok none route] at run
      rcases h : processShards (recording processBatchChunk) frontends
        (router.perShardQuota / router.frontends.length) 0 router.shards with ⟨e | _, shards⟩
      · rw [h] at run
        obtain ⟨shard, chunk, panic⟩ := processShards_error h
        exact absurd (panic.trans (Prod.mk.inj run).1) (silent shard.1 chunk load quota)
      · rw [h] at run
        exact nomatch run

end Claim

section Runs
open ShardedBatchRouter

/-- One shard, two frontends and three updates, with room for as many as given. -/
def threeUpdates (batchSize : Nat) : ShardedBatchRouter (Unit × List (OramBlock 1 Nat)) 1 Nat :=
  { newWithFrontends [((), [])] batchSize 4 2 id with
    pending := [⟨1, 0, 5, .replicate 1 1⟩, ⟨2, 0, 6, .replicate 1 2⟩, ⟨3, 0, 7, .replicate 1 3⟩] }

theorem threeUpdates_formed (batchSize : Nat) : (threeUpdates batchSize).Formed := ⟨rfl, rfl, Nat.two_pos⟩

/-- A batch of four slots is passed on whole. -/
theorem flush_passes_batch_four :
    ∃ router', (threeUpdates 4).flush (recording fun _ _ => (.ok (), ())) = (.ok (), router') ∧
      ∀ p, payloadSum p (router'.shards.flatMap Prod.snd) =
        payloadSum p ((threeUpdates 4).pending.take (threeUpdates 4).batchCapacity) := by
  have done : ((threeUpdates 4).flush (recording fun _ _ => (.ok (), ()))).1.toBool = true := by decide +kernel
  obtain ⟨⟨⟩, done⟩ := exists_of_toBool done
  have claim := @flush_passes_batch_iff Unit 1 Nat _ _ (fun _ _ => (.ok (), ())) (threeUpdates 4)
    (threeUpdates_formed 4) (by decide)
  exact ⟨_, Prod.ext done rfl, ((claim.1 _ (Prod.ext done rfl)).mpr (claim.2.1 (.inl (by decide)))).1⟩

/-- Of three slots the two frontends take one each, and the third update is lost. -/
theorem flush_loses_update :
    ∃ router', (threeUpdates 3).flush (recording fun _ _ => (.ok (), ())) = (.ok (), router') ∧
      ¬ ∀ p, payloadSum p (router'.shards.flatMap Prod.snd) =
        payloadSum p ((threeUpdates 3).pending.take (threeUpdates 3).batchCapacity) := by
  have done : ((threeUpdates 3).flush (recording fun _ _ => (.ok (), ()))).1.toBool = true := by decide +kernel
  obtain ⟨⟨⟩, done⟩ := exists_of_toBool done
  refine ⟨_, Prod.ext done rfl, fun same => ?_⟩
  have absent : ∀ b ∈ ((threeUpdates 3).flush (recording fun _ _ => (.ok (), ()))).2.shards.flatMap Prod.snd,
      b.isReal = true → b.payload ≠ #v[3] := by decide +kernel
  have none := same #v[3]
  rw [payloadSum_eq, mass_eq_zero.mpr absent, map_zero] at none
  exact payloadSum_ne_zero (b := ⟨3, 0, 7, #v[3]⟩) (by decide) (by decide) none.symm

end Runs
end Roga
