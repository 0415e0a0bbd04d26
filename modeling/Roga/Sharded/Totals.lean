import Roga.Histogram.Control
import Roga.Histogram.Totals
import Roga.Sharded.Alignment

/-! The sharded histogram refines the map of running totals: every key lives in one
shard, and the pending updates and the shards hold together what has been appended. -/
namespace Roga
open Ct Reals ObliviousStash ObliviousHistogram
variable {Z K A S : Nat} {V : Type} {math : ResizeMath} [AddCommSemigroup V] [Inhabited V]

section Sums

omit [Inhabited V] in
theorem payloadSum_perm {p : Vector UInt8 K} {xs ys : List (OramBlock K V)} (perm : xs.Perm ys) :
    payloadSum p xs = payloadSum p ys := by
  rw [payloadSum_eq, payloadSum_eq, mass_perm p perm]

omit [Inhabited V] in
theorem payloadSum_reals (p : Vector UInt8 K) (xs : List (OramBlock K V)) : payloadSum p (reals xs) = payloadSum p xs := by
  rw [payloadSum_eq, payloadSum_eq, mass_reals]

omit [Inhabited V] in
theorem payloadSum_singleton (p : Vector UInt8 K) (b : OramBlock K V) :
    payloadSum p [b] = if b.isReal = true ∧ b.payload = p then (b.value : WithZero V) else 0 := by
  rw [payloadSum_eq, mass_cons, mass_nil, add_zero]
  by_cases here : b.isReal = true ∧ b.payload = p
  · rw [if_pos here, weight_real here.1 here.2]
    rfl
  · rw [if_neg here, show weight (AddHom.id V) p b = 0 from if_neg here, map_zero]

omit [Inhabited V] in
theorem payloadSum_eq_zero {p : Vector UInt8 K} {xs : List (OramBlock K V)}
    (none : ∀ b ∈ xs, b.isReal = true → b.payload ≠ p) : payloadSum p xs = 0 := by
  rw [payloadSum_eq, mass_eq_zero.mpr none, map_zero]

/-- The value of a prepared update does not depend on the epoch it is stored with. -/
theorem payloadSum_prepared (p : Vector UInt8 K) (epoch : UInt8) (updates : List (PreparedUpdate K V)) :
    payloadSum p (updates.map (preparedBlock epoch)) = payloadSum p (updates.map (preparedBlock 0)) := by
  induction updates with
  | nil => rfl
  | cons u updates ih =>
    rw [List.map_cons, List.map_cons, ← List.singleton_append, ← List.singleton_append (x := preparedBlock 0 u),
      payloadSum_append, payloadSum_append, ih]
    congr 1
    rw [preparedBlock, preparedBlock, updateBlock_eq, updateBlock_eq]
    split
    · rw [payloadSum_singleton, payloadSum_singleton]
      rfl
    · rfl

/-- The update of a routed block. -/
def routedUpdate (b : OramBlock K V) : PreparedUpdate K V := (b.tag, b.value, b.payload, ctIsReal b.tag)

theorem payloadSum_routed (p : Vector UInt8 K) (blocks : List (OramBlock K V)) :
    payloadSum p ((blocks.map routedUpdate).map (preparedBlock 0)) = payloadSum p blocks := by
  induction blocks with
  | nil => rfl
  | cons b blocks ih =>
    rw [List.map_cons, List.map_cons, ← List.singleton_append, ← List.singleton_append (x := b), payloadSum_append,
      payloadSum_append, ih]
    congr 1
    have mask : (ctIsReal b.tag &&& 1 != 0) = b.isReal := by
      have real := b.ctIsReal_isReal
      rw [OramBlock.ctIsReal] at real
      rw [real, toUInt8_and_one, toUInt8_bne_zero]
    rw [routedUpdate, preparedBlock, updateBlock_eq, mask]
    cases real : b.isReal with
    | true =>
      rw [if_pos rfl, payloadSum_singleton, payloadSum_singleton]
      rfl
    | false =>
      rw [if_neg Bool.false_ne_true, payloadSum_eq_zero fun c hc h => ?_, payloadSum_eq_zero fun c hc h => ?_]
      · rw [List.mem_singleton.mp hc, real] at h
        cases h
      · rw [List.mem_singleton.mp hc, OramBlock.isReal_dummy] at h
        cases h

end Sums

namespace ObliviousHistogram
variable {h h' : ObliviousHistogram Z K A S V} {known : UInt64 × Vector UInt8 K → Prop}

/-- A batch adds the values of its updates. -/
theorem appendPreparedMaskedBatch_values (inv : h.Inv known) {updates : List (PreparedUpdate K V)}
    (knows : KnownUpdates known updates) (run : h.appendPreparedMaskedBatch math updates = .ok h') (p : Vector UInt8 K) :
    payloadSum p h'.contents = payloadSum p (updates.map (preparedBlock 0)) + payloadSum p h.contents := by
  induction hn : updates.length using Nat.strong_induction_on generalizing h updates with
  | _ n ih =>
    by_cases none : updates = []
    · rw [none, appendPreparedMaskedBatch, dif_pos rfl, Except.ok.injEq] at run
      rw [none, ← run]
      exact (zero_add _).symm
    obtain ⟨progress, m, e, filled, evicted, rest⟩ := batch_filled inv knows none run
    have moved := evictIf_reshuffle filled.inv.shape.height_le evicted
    generalize h.chunkLen h.currentEvictInterval updates.length = count at progress filled rest
    have tail := ih (updates.drop count).length (by
      have := List.length_pos_iff.mpr none
      rw [List.length_drop]
      omega) (moved.inv filled.inv) (fun u hu => knows u (List.mem_of_mem_drop hu)) rest rfl
    have kept : payloadSum p e.contents = payloadSum p m.contents := by
      rw [payloadSum_eq, payloadSum_eq, moved.mass_eq filled.inv]
    rw [tail, kept, payloadSum_perm filled.contents, payloadSum_append, payloadSum_reals, payloadSum_prepared p h.epoch, ← add_assoc,
      add_comm (payloadSum p ((updates.drop count).map _)), ← payloadSum_append, ← List.map_append, List.take_append_drop]

omit [Inhabited V] in
theorem Reshuffle.payloadSum_eq [Inhabited V] (moves : Reshuffle h h') (inv : h.Inv known) (p : Vector UInt8 K) :
    payloadSum p h'.contents = payloadSum p h.contents := by
  rw [Roga.payloadSum_eq, Roga.payloadSum_eq, moves.mass_eq inv]

end ObliviousHistogram

section Owned
variable {prf : Aes128} {keys : List UInt8 → Prop} {n : Nat}

/-- The tags and payloads of the keys of one shard. -/
def owned (prf : Aes128) (keys : List UInt8 → Prop) (n s : Nat) (id : UInt64 × Vector UInt8 K) : Prop :=
  keyed prf keys id ∧ shardIndexForTag id.1 n = s

/-- The shards from index `s` on hold their own keys only. -/
def Owned (prf : Aes128) (keys : List UInt8 → Prop) (n : Nat) : Nat → List (ObliviousHistogram Z K A S V) → Prop
  | _, [] => True
  | s, tree :: trees => tree.Inv (owned prf keys n s) ∧ Owned prf keys n (s + 1) trees

/-- The blocks of all shards. -/
def shardBlocks (trees : List (ObliviousHistogram Z K A S V)) : List (OramBlock K V) := trees.flatMap contents

omit [Inhabited V] in
theorem payloadSum_shards_cons (p : Vector UInt8 K) (tree : ObliviousHistogram Z K A S V)
    (trees : List (ObliviousHistogram Z K A S V)) :
    payloadSum p (shardBlocks (tree :: trees)) = payloadSum p tree.contents + payloadSum p (shardBlocks trees) := by
  rw [shardBlocks, List.flatMap_cons, payloadSum_append]
  rfl

/-- Shards whose blocks move within each of them. -/
theorem Owned.reshuffle {s : Nat} {trees trees' : List (ObliviousHistogram Z K A S V)} (held : Owned prf keys n s trees)
    (all : List.Forall₂ Reshuffle trees trees') : Owned prf keys n s trees' ∧
      ∀ p, payloadSum p (shardBlocks trees') = payloadSum p (shardBlocks trees) := by
  induction all generalizing s with
  | nil => exact ⟨trivial, fun _ => rfl⟩
  | cons first _ ih =>
    obtain ⟨inv, rest⟩ := held
    obtain ⟨tail, same⟩ := ih rest
    refine ⟨⟨first.inv inv, tail⟩, fun p => ?_⟩
    rw [payloadSum_shards_cons, payloadSum_shards_cons, first.payloadSum_eq inv, same]

theorem processShard_values {known : UInt64 × Vector UInt8 K → Prop} {tree tree' : ObliviousHistogram Z K A S V}
    (inv : tree.Inv known) {chunks : List (List (OramBlock K V))}
    (knows : ∀ b ∈ chunks.flatten, b.isReal = true → known b.identity)
    (run : ShardedBatchRouter.processShard (ShardedObliviousHistogram.processBatchChunk math) tree chunks = (.ok (), tree')) :
    tree'.Inv known ∧ ∀ p, payloadSum p tree'.contents = payloadSum p tree.contents + payloadSum p chunks.flatten := by
  induction chunks generalizing tree with
  | nil =>
    obtain ⟨-, rfl⟩ := Prod.mk.inj run
    exact ⟨inv, fun p => (add_zero _).symm⟩
  | cons chunk chunks ih =>
    rw [ShardedBatchRouter.processShard] at run
    split at run
    · rename_i next hnext
      rw [ShardedObliviousHistogram.processBatchChunk] at hnext
      split at hnext
      · rename_i next' appended
        obtain ⟨-, rfl⟩ := Prod.mk.inj hnext
        have updates : KnownUpdates known (chunk.map routedUpdate) := by
          intro u hu mask real
          obtain ⟨b, hb, rfl⟩ := List.mem_map.mp hu
          exact knows b (List.mem_append_left _ hb) (OramBlock.isReal_iff.mpr real)
        obtain ⟨inv', -⟩ := appendPreparedMaskedBatch_inv inv updates appended
        obtain ⟨done, sums⟩ := ih inv' (fun b hb => knows b (List.mem_append_right _ hb)) run
        refine ⟨done, fun p => ?_⟩
        rw [sums, appendPreparedMaskedBatch_values inv updates appended, payloadSum_routed, List.flatten_cons,
          payloadSum_append, add_comm (payloadSum p chunk), add_assoc]
      · cases hnext
    · cases run

/-- Every shard keeps to its own keys, and all of them together receive what has been routed. -/
theorem processShards_values {frontends : List (RouterFrontend K V)} {subQuota s : Nat}
    {trees trees' : List (ObliviousHistogram Z K A S V)} (held : Owned prf keys n s trees)
    (own : ∀ i < trees.length, ∀ b ∈ (ShardedBatchRouter.shardChunks frontends subQuota (s + i)).flatten,
      b.isReal = true → owned prf keys n (s + i) b.identity)
    (run : ShardedBatchRouter.processShards (ShardedObliviousHistogram.processBatchChunk math) frontends subQuota s trees =
      (.ok (), trees')) : Owned prf keys n s trees' ∧ ∀ p, payloadSum p (shardBlocks trees') =
        payloadSum p (shardBlocks trees) + payloadSum p ((List.range trees.length).flatMap fun i =>
          (ShardedBatchRouter.shardChunks frontends subQuota (s + i)).flatten) := by
  induction trees generalizing s trees' with
  | nil =>
    obtain ⟨-, rfl⟩ := Prod.mk.inj run
    exact ⟨trivial, fun p => (add_zero _).symm⟩
  | cons tree trees ih =>
    obtain ⟨inv, rest⟩ := held
    rw [ShardedBatchRouter.processShards] at run
    split at run
    · rename_i next hnext
      rcases others : ShardedBatchRouter.processShards (ShardedObliviousHistogram.processBatchChunk math) frontends subQuota
        (s + 1) trees with ⟨_ | _, tail⟩
      · rw [others] at run
        cases run
      · rw [others] at run
        obtain ⟨-, rfl⟩ := Prod.mk.inj run
        obtain ⟨inv', sums⟩ := processShard_values inv (own 0 (Nat.succ_pos _)) hnext
        obtain ⟨tail', sums'⟩ := ih rest (fun i hi b hb real => by
          rw [Nat.add_assoc, Nat.add_comm 1] at hb ⊢
          exact own (i + 1) (Nat.succ_lt_succ hi) b hb real) others
        refine ⟨⟨inv', tail'⟩, fun p => ?_⟩
        rw [payloadSum_shards_cons, payloadSum_shards_cons, sums, sums', List.length_cons, List.range_succ_eq_map,
          List.flatMap_cons, List.flatMap_map, payloadSum_append]
        have shift : (List.range trees.length).flatMap (fun i =>
            (ShardedBatchRouter.shardChunks frontends subQuota (s + 1 + i)).flatten) =
            (List.range trees.length).flatMap fun i =>
              (ShardedBatchRouter.shardChunks frontends subQuota (s + i.succ)).flatten :=
          List.flatMap_congr fun i _ => by rw [Nat.succ_eq_add_one, Nat.add_assoc, Nat.add_comm 1]
        rw [shift, Nat.add_zero]
        exact add_add_add_comm _ _ _ _
    · cases run

end Owned
namespace ShardedObliviousHistogram
variable {h h' g : ShardedObliviousHistogram Z K A S V} {prf : Aes128} {keys : List UInt8 → Prop} {n : Nat}
  {appended : List UInt8 → List V}

omit [Inhabited V] in
/-- A key's blocks lie in its shard. -/
theorem absent_of_other (sep : Separated prf K keys) {s : Nat} {tree : ObliviousHistogram Z K A S V}
    (inv : tree.Inv (owned prf keys n s)) {key : List UInt8} (hkey : keys key)
    (other : shardIndexForTag (prfTag prf key) n ≠ s) : payloadSum (copyPrefix K key) tree.contents = 0 := by
  refine payloadSum_eq_zero fun b hb real same => other ?_
  obtain ⟨known, here⟩ := inv.inserted b hb
  have known : keyed prf keys (b.tag, copyPrefix K key) := same ▸ known
  rw [← sep.covers hkey known]
  exact here

omit [Inhabited V] in
theorem Owned.absent_past (sep : Separated prf K keys) {s : Nat} {trees : List (ObliviousHistogram Z K A S V)}
    (held : Owned prf keys n s trees) {key : List UInt8} (hkey : keys key)
    (past : shardIndexForTag (prfTag prf key) n < s) : payloadSum (copyPrefix K key) (shardBlocks trees) = 0 := by
  induction trees generalizing s with
  | nil => rfl
  | cons tree trees ih =>
    rw [payloadSum_shards_cons, absent_of_other sep held.1 hkey past.ne, ih held.2 (past.trans (Nat.lt_succ_self s)), add_zero]

/-- A read returns what the shard of the key holds, and takes it out. -/
theorem readShards_values (sep : Separated prf K keys) {key : List UInt8} (hkey : keys key) {draws : Nat → Nat} {s : Nat}
    {trees trees' : List (ObliviousHistogram Z K A S V)} {result v : V} (held : Owned prf keys n s trees)
    (run : readShards (shardIndexForTag (prfTag prf key) n) (prfTag prf key) (copyPrefix K key) draws s trees result =
      .ok (v, trees')) :
    Owned prf keys n s trees' ∧
    (∀ k, keys k → payloadSum (copyPrefix K k) (shardBlocks trees') =
      if k = key then 0 else payloadSum (copyPrefix K k) (shardBlocks trees)) ∧
    (s ≤ shardIndexForTag (prfTag prf key) n → shardIndexForTag (prfTag prf key) n < s + trees.length →
      v = readValue (payloadSum (copyPrefix K key) (shardBlocks trees))) ∧
    (shardIndexForTag (prfTag prf key) n < s → v = result) := by
  induction trees generalizing s trees' result with
  | nil =>
    obtain ⟨rfl, rfl⟩ := Prod.mk.inj (Except.ok.inj run)
    refine ⟨trivial, fun k _ => (ite_self 0).symm, fun le lt => absurd lt (Nat.not_lt.mpr le), fun _ => rfl⟩
  | cons tree trees ih =>
    obtain ⟨inv, rest⟩ := held
    rw [readShards] at run
    split at run
    · rename_i target
      obtain ⟨⟨value, next⟩, read, run⟩ := bind_ok run
      obtain ⟨⟨last, others⟩, tail, run⟩ := bind_ok run
      simp only [pure, Except.pure, Except.ok.injEq, Prod.mk.injEq] at run
      obtain ⟨rfl, rfl⟩ := run
      obtain ⟨tail', sums, -, past⟩ := ih rest tail
      obtain rfl := past (target ▸ Nat.lt_succ_self s)
      have covers : ∀ t, owned prf keys n s (t, copyPrefix K key) →
          toLeaf t tree.height = toLeaf (prfTag prf key) tree.height := fun t known => by
        rw [sep.covers hkey known.1]
      have none := mass_rest (f := AddHom.id V) inv covers
      have identified : Identified (owned (K := K) prf keys n s) := fun a b ha hb => sep.identified a b ha.1 hb.1
      have value := readPreparedTotal_value inv identified none read
      have masses := readPreparedTotal_mass inv none read
      have elsewhere := Owned.absent_past sep rest hkey (target ▸ Nat.lt_succ_self s)
      refine ⟨⟨(readPreparedTotal_step inv read).1, tail'⟩, fun k hk => ?_, fun _ _ => ?_, fun lt => ?_⟩
      · rw [payloadSum_shards_cons, payloadSum_shards_cons, sums k hk, payloadSum_eq, masses, payloadSum_eq _ tree.contents]
        by_cases same : k = key
        · rw [same, if_pos rfl, if_pos rfl, if_pos rfl, map_zero, add_zero]
        · rw [if_neg fun h => same (sep.prefix_inj k key hk hkey h), if_neg same, if_neg same]
      · rw [payloadSum_shards_cons, elsewhere, add_zero, value, payloadSum_eq]
      · exact absurd lt (target ▸ Nat.lt_irrefl _)
    · rename_i dummy
      obtain ⟨next, read, run⟩ := bind_ok run
      obtain ⟨⟨last, others⟩, tail, run⟩ := bind_ok run
      simp only [pure, Except.pure, Except.ok.injEq, Prod.mk.injEq] at run
      obtain ⟨rfl, rfl⟩ := run
      obtain ⟨tail', sums, value, past⟩ := ih rest tail
      have moves := readDummy_reshuffle read
      have absent := absent_of_other sep inv hkey (Ne.symm dummy)
      refine ⟨⟨moves.inv inv, tail'⟩, fun k hk => ?_, fun le lt => ?_, fun lt => past (lt.trans (Nat.lt_succ_self s))⟩
      · rw [payloadSum_shards_cons, payloadSum_shards_cons, sums k hk, moves.payloadSum_eq inv]
        by_cases same : k = key
        · rw [same, if_pos rfl, if_pos rfl, absent, add_zero]
        · rw [if_neg same, if_neg same]
      · rw [payloadSum_shards_cons, absent, zero_add]
        rw [List.length_cons] at lt
        exact value (by omega) (by omega)

/-- A growth of the shards, and the coordinator's signal, move no block out of its shard. -/
theorem handleDeferredResize_reshuffle (run : h.handleDeferredResize math = .ok h') :
    (∃ shards capacity sizeInBytes, h' = { h with router := { h.router with shards }, capacity, sizeInBytes }) ∧
      List.Forall₂ Reshuffle h.router.shards h'.router.shards := by
  rcases handleDeferredResize_ok run with ⟨-, rfl⟩ | ⟨-, first, rest, signal, ready, shards, taken, outcome⟩
  · exact ⟨⟨_, _, _, rfl⟩, List.forall₂_same.mpr fun tree _ => .refl tree⟩
  have took := takeDeferredAutoResizeSignal_reshuffle taken
  rw [shards]
  rcases outcome with ⟨-, rfl⟩ | ⟨target, grown, -, applied, rfl⟩
  · exact ⟨⟨_, _, _, rfl⟩, .cons took (List.forall₂_same.mpr fun tree _ => .refl tree)⟩
  · refine ⟨⟨_, _, _, rfl⟩, ?_⟩
    cases forEachShard_ok applied with
    | cons head tail =>
      exact .cons (took.trans (applyDeferredAutoResizeGrow_reshuffle head))
        (tail.imp fun _ _ done => applyDeferredAutoResizeGrow_reshuffle done)

/-- The pending updates and the shards hold together the values appended under each key. -/
structure Holds (prf : Aes128) (keys : List UInt8 → Prop) (n : Nat) (appended : List UInt8 → List V)
    (h : ShardedObliviousHistogram Z K A S V) : Prop where
  formed : h.router.Formed
  prf_eq : h.router.prf = prf
  count : h.router.shardCount = n
  even : h.router.frontendCount ∣ h.router.batchCapacity
  positive : 0 < h.router.batchCapacity
  room : h.router.pending.length ≤ h.router.batchCapacity
  shards : Owned prf keys n 0 h.router.shards
  pending : ∀ b ∈ reals h.router.pending, keyed prf keys b.identity
  values : ∀ k, keys k → payloadSum (copyPrefix K k) (shardBlocks h.router.shards) +
    payloadSum (copyPrefix K k) h.router.pending = sumOf (appended k)

/-- Shards whose blocks move within each of them hold the same. -/
theorem Holds.of_shards (holds : Holds prf keys n appended h) (framed : Framed h h')
    (frontends : h'.router.frontends = h.router.frontends) (pending : h'.router.pending = h.router.pending)
    (all : List.Forall₂ Reshuffle h.router.shards h'.router.shards) : Holds prf keys n appended h' := by
  obtain ⟨owned, sums⟩ := holds.shards.reshuffle all
  have formed := holds.formed
  refine ⟨⟨framed.shardCount.trans (formed.shards.trans all.length_eq), ?_, framed.frontendCount ▸ formed.frontend⟩,
    framed.prf.trans holds.prf_eq, framed.shardCount.trans holds.count, ?_, framed.batchCapacity ▸ holds.positive, ?_, owned, pending ▸ holds.pending,
    fun k hk => ?_⟩
  · rw [frontends, framed.frontendCount]
    exact formed.frontends
  · rw [framed.frontendCount, framed.batchCapacity]
    exact holds.even
  · rw [pending, framed.batchCapacity]
    exact holds.room
  · rw [pending, sums]
    exact holds.values k hk

/-- What a frontend hands to a shard belongs to it. -/
theorem shardChunks_owned {router : ShardedBatchRouter (ObliviousHistogram Z K A S V) K V} (few : router.shardCount ≤ 64)
    (knows : ∀ b ∈ reals router.pending, keyed prf keys b.identity) {frontends : List (RouterFrontend K V)}
    (run : router.routeBatch router.padded = .ok frontends) {s : Nat} (hs : s < router.shardCount) :
    ∀ b ∈ (ShardedBatchRouter.shardChunks frontends (router.perShardQuota / router.frontends.length) s).flatten,
      b.isReal = true → owned prf keys router.shardCount s b.identity := by
  obtain ⟨-, processed⟩ := ShardedBatchRouter.routeBatch_ok router.padded_length run
  intro b hb real
  rw [ShardedBatchRouter.shardChunks] at hb
  obtain ⟨chunk, hchunk, hb⟩ := List.mem_flatten.mp hb
  obtain ⟨frontend, hfrontend, rfl⟩ := List.mem_map.mp hchunk
  have each : ∀ frontend ∈ frontends, ∃ i, processSubBatch
      (bucketAt (router.batchCapacity / router.frontends.length) router.padded i) router.shardCount
      (router.perShardQuota / router.frontends.length) = .ok frontend :=
    forall_mem_right processed fun i _ done => ⟨i, done⟩
  obtain ⟨i, done⟩ := each frontend hfrontend
  have orders : KeyOrders router.shardCount fun tag => ∃ b ∈ reals (bucketAt
      (router.batchCapacity / router.frontends.length) router.padded i), b.tag = tag := by
    rintro - - ⟨a, ha, rfl⟩ ⟨c, hc, rfl⟩
    exact keyOrders_of_le few a.tag c.tag (OramBlock.isReal_iff.mp (mem_reals.mp ha).2)
      (OramBlock.isReal_iff.mp (mem_reals.mp hc).2)
  refine ⟨?_, (processSubBatch_delivered done orders).own s hs b hb real⟩
  obtain ⟨-, -, survivors, -⟩ := processSubBatch_ok done
  have routed : b ∈ reals frontend.routerBlocks := mem_reals.mpr ⟨List.mem_of_mem_drop (List.mem_of_mem_take hb), real⟩
  obtain ⟨a, ha, same⟩ := survivors.known b routed
  obtain ⟨ha, areal⟩ := mem_reals.mp ha
  rw [← same]
  refine knows a (mem_reals.mpr ⟨?_, areal⟩)
  have padded : a ∈ router.padded := List.mem_of_mem_drop (List.mem_of_mem_take ha)
  rw [ShardedBatchRouter.padded_eq] at padded
  rcases List.mem_append.mp padded with mem | dummy
  · exact mem
  · rw [List.eq_of_mem_replicate dummy, OramBlock.isReal_dummy] at areal
    cases areal

/-- A flush moves all pending updates into the shards of their keys. -/
theorem Holds.flush (few : n ≤ 64) (holds : Holds prf keys n appended h) (run : h.flush math = .ok h') :
    Holds prf keys n appended h' ∧ h'.router.pending = [] := by
  obtain ⟨g, routed, run⟩ := bind_ok run
  have after : Holds prf keys n appended g ∧ g.router.pending = [] := by
    have formed := holds.formed
    rcases flushRouter_ok routed with ⟨none, rfl⟩ | ⟨some, frontends, shards, route, processed, rfl⟩
    · exact ⟨holds, none⟩
    have empty : h.router.pending.drop h.router.batchCapacity = [] := List.drop_eq_nil_of_le holds.room
    have count : h.router.shards.length = n := formed.shards.symm.trans holds.count
    have own : ∀ i < h.router.shards.length, ∀ b ∈ (ShardedBatchRouter.shardChunks frontends
        (h.router.perShardQuota / h.router.frontends.length) (0 + i)).flatten, b.isReal = true →
          owned prf keys n (0 + i) b.identity := by
      intro i hi b hb real
      rw [Nat.zero_add] at hb ⊢
      rw [← holds.count]
      exact shardChunks_owned (holds.count ▸ few) holds.pending route (by rw [formed.shards]; exact hi) b hb real
    obtain ⟨held, sums⟩ := processShards_values holds.shards own processed
    have covered : h.router.covered = h.router.pending := by
      rw [ShardedBatchRouter.covered, Nat.mul_div_cancel' holds.even, List.take_of_length_le holds.room]
    have passed : ∀ p, payloadSum p ((List.range h.router.shards.length).flatMap fun i =>
        (ShardedBatchRouter.shardChunks frontends (h.router.perShardQuota / h.router.frontends.length) (0 + i)).flatten) =
          payloadSum p h.router.pending := by
      intro p
      simp only [Nat.zero_add]
      rw [payloadSum_eq, ShardedBatchRouter.routeBatch_mass (AddHom.id V) p formed route, ← payloadSum_eq, covered]
    have lengths : frontends.length = h.router.frontends.length := by
      obtain ⟨-, processed⟩ := ShardedBatchRouter.routeBatch_ok h.router.padded_length route
      rw [← processed.length_eq, List.length_range]
    refine ⟨⟨⟨?_, lengths.trans formed.frontends, formed.frontend⟩, holds.prf_eq, holds.count, holds.even, holds.positive, ?_,
      held, ?_,
      fun k hk => ?_⟩, empty⟩
    · exact formed.shards.trans (ShardedBatchRouter.processShards_length processed).symm
    · change (h.router.pending.drop _).length ≤ _
      rw [empty]
      exact Nat.zero_le _
    · change ∀ b ∈ reals (h.router.pending.drop _), _
      rw [empty]
      exact fun b hb => absurd hb List.not_mem_nil
    · change payloadSum _ (shardBlocks shards) + payloadSum _ (h.router.pending.drop _) = _
      rw [empty, sums, passed]
      exact (add_zero _).trans (holds.values k hk)
  obtain ⟨⟨shards, capacity, sizeInBytes, rfl⟩, all⟩ := handleDeferredResize_reshuffle run
  exact ⟨after.1.of_shards ⟨rfl, rfl, rfl, rfl, rfl⟩ rfl rfl all, after.2⟩

/-- An update is pending until the next flush, which may be that of its append. -/
theorem Holds.append (sep : Separated prf K keys) (few : n ≤ 64) (holds : Holds prf keys n appended h)
    (room : h.router.pending.length < h.router.batchCapacity) {key : List UInt8} (hkey : keys key) {val : V}
    (run : h.append math key val = .ok h') :
    Holds prf keys n (Function.update appended key (appended key ++ [val])) h' ∧
      h'.router.pending.length < h'.router.batchCapacity := by
  have real : prfTag h.router.prf key ≠ 0 := holds.prf_eq ▸ sep.tag_ne_zero key hkey
  have pushed : Holds prf keys n (Function.update appended key (appended key ++ [val]))
      ({ h with router := { h.router with pending := h.router.pending ++
        [OramBlock.real (prfTag h.router.prf key) h.epoch val (copyPrefix K key)] } } :
          ShardedObliviousHistogram Z K A S V) := by
    have formed := holds.formed
    refine ⟨⟨formed.shards, formed.frontends, formed.frontend⟩, holds.prf_eq, holds.count, holds.even, holds.positive, ?_,
      holds.shards, ?_, fun k hk => ?_⟩
    · rw [List.length_append]
      exact room
    · intro b hb
      rw [reals_append] at hb
      rcases List.mem_append.mp hb with hb | hb
      · exact holds.pending b hb
      · obtain ⟨hb, -⟩ := mem_reals.mp hb
        rw [List.mem_singleton.mp hb]
        exact ⟨key, hkey, by rw [← holds.prf_eq]; rfl⟩
    · rw [payloadSum_append, ← add_assoc, holds.values k hk, payloadSum_singleton]
      by_cases same : k = key
      · rw [if_pos ⟨OramBlock.isReal_iff.mpr real, by rw [same]; rfl⟩, same, Function.update_self, sumOf_append,
          sumOf_singleton]
        rfl
      · rw [if_neg fun both => same (sep.prefix_inj k key hk hkey both.2.symm), add_zero, Function.update_of_ne same]
  rw [ShardedObliviousHistogram.append] at run
  simp only at run
  split at run
  · obtain ⟨held, none⟩ := pushed.flush few run
    rw [none]
    exact ⟨held, held.positive⟩
  · rename_i below
    obtain rfl := Except.ok.inj run
    exact ⟨pushed, Nat.not_le.mp below⟩

/-- A read flushes first, so it sees every update; the dummy accesses change no total. -/
theorem Holds.readTotal (sep : Separated prf K keys) (some : n ≠ 0) (few : n ≤ 64) (holds : Holds prf keys n appended h)
    {key : List UInt8} (hkey : keys key) {draws : Nat → Nat} {v : V} (run : h.readTotal math key draws = .ok (v, h')) :
    v = total (appended key) ∧ Holds prf keys n (Function.update appended key []) h' ∧
      h'.router.pending.length < h'.router.batchCapacity := by
  obtain ⟨g, flushed, run⟩ := bind_ok run
  obtain ⟨⟨result, shards⟩, read, run⟩ := bind_ok run
  simp only [pure, Except.pure, Except.ok.injEq, Prod.mk.injEq] at run
  obtain ⟨rfl, rfl⟩ := run
  obtain ⟨held, none⟩ := holds.flush few flushed
  have formed := held.formed
  have count : g.router.shards.length = n := formed.shards.symm.trans held.count
  simp only [held.prf_eq, held.count] at read
  obtain ⟨owned, sums, value, -⟩ := readShards_values sep hkey held.shards read
  have total := held.values key hkey
  refine ⟨?_, ⟨⟨?_, formed.frontends, formed.frontend⟩, held.prf_eq, held.count, held.even, held.positive, held.room, owned,
    held.pending, fun k hk => ?_⟩, ?_⟩
  · rw [value (Nat.zero_le _) (by rw [Nat.zero_add, count]; exact shardIndexForTag_lt _ some), ← readValue_sumOf, ← total,
      none]
    exact congrArg readValue (add_zero _).symm
  · exact formed.shards.trans (readShards_idle read).length_eq
  · change payloadSum _ (shardBlocks shards) + payloadSum _ g.router.pending = _
    rw [none, sums k hk]
    by_cases same : k = key
    · rw [if_pos same, same, Function.update_self]
      exact add_zero 0
    · rw [if_neg same, Function.update_of_ne same, ← held.values k hk, none]
  · change g.router.pending.length < _
    rw [none]
    exact held.positive

omit [AddCommSemigroup V] in
theorem newTrees_owned [Add V] {cap s : Nat} {prfs : List Aes128} {trees : List (ObliviousHistogram Z K A S V)}
    (run : newTrees cap prfs = .ok trees) : trees.length = prfs.length ∧ Owned prf keys n s trees ∧ shardBlocks trees = [] := by
  induction prfs generalizing s trees with
  | nil =>
    obtain rfl := Except.ok.inj run
    exact ⟨rfl, trivial, rfl⟩
  | cons _ prfs ih =>
    obtain ⟨first, start, run⟩ := bind_ok run
    obtain ⟨others, tail, rfl⟩ := map_ok run
    obtain ⟨inv, empty, -⟩ := new_spec start
    obtain ⟨length, owned, none⟩ := ih tail
    refine ⟨congrArg Nat.succ length, ⟨inv, owned⟩, ?_⟩
    rw [shardBlocks, List.flatMap_cons, empty]
    exact none

theorem Holds.new {blockSize total batchSize quota frontends : Nat} {prfs : List Aes128} (positive : 0 < batchSize)
    (even : frontends ∣ batchSize) (start : newWithFrontends blockSize prfs total batchSize quota frontends prf = .ok h) :
    prfs.length ≠ 0 ∧ Holds prf keys prfs.length (fun _ => []) h ∧ h.router.pending.length < h.router.batchCapacity := by
  obtain ⟨some, trees, created, rfl⟩ := newWithFrontends_ok start
  obtain ⟨length, owned, none⟩ := newTrees_owned created
  have frontend : max frontends 1 = frontends := by
    refine Nat.max_eq_left (Nat.pos_of_ne_zero fun zero => ?_)
    rw [zero, Nat.zero_dvd] at even
    omega
  refine ⟨some, ⟨ShardedBatchRouter.newWithFrontends_formed _ _ _ _ _, rfl, length, ?_, positive, Nat.zero_le _, owned,
    fun b hb => absurd hb List.not_mem_nil, fun k _ => ?_⟩, positive⟩
  · change max frontends 1 ∣ batchSize
    rw [frontend]
    exact even
  · change payloadSum _ (shardBlocks trees) + payloadSum _ [] = _
    rw [none]
    exact add_zero 0

theorem forEachShard_reshuffle {f : ObliviousHistogram Z K A S V → Except Panic (ObliviousHistogram Z K A S V)}
    (each : ∀ tree tree', f tree = .ok tree' → Reshuffle tree tree') {trees trees' : List (ObliviousHistogram Z K A S V)}
    (run : forEachShard f trees = .ok trees') : List.Forall₂ Reshuffle trees trees' :=
  (forEachShard_ok run).imp each

theorem enableShards_reshuffle {cfg : AutoResizeConfig} {target i : Nat} {trees trees' : List (ObliviousHistogram Z K A S V)}
    (run : enableShards math cfg target i trees = .ok trees') : List.Forall₂ Reshuffle trees trees' := by
  induction trees generalizing i trees' with
  | nil =>
    obtain rfl := Except.ok.inj run
    exact .nil
  | cons tree trees ih =>
    obtain ⟨first, enabled, run⟩ := bind_ok run
    obtain ⟨others, tail, rfl⟩ := map_ok run
    exact .cons (configureAutoResize_reshuffle enabled) (ih tail)

end ShardedObliviousHistogram

/-- What an operation does to the map, and the total a read returns. -/
def ShardedOp.onTotals (appended : List UInt8 → List V) : ShardedOp V → Option V × (List UInt8 → List V)
  | .append key val => (none, Function.update appended key (appended key ++ [val]))
  | .readTotal key _ => (some (total (appended key)), Function.update appended key [])
  | _ => (none, appended)

def ShardedOp.totalsRun (appended : List UInt8 → List V) : List (ShardedOp V) → List (Option V)
  | [] => []
  | op :: ops => (op.onTotals appended).1 :: totalsRun (op.onTotals appended).2 ops

/-- The values appended under each key since its last read. -/
def ShardedOp.totalsAfter (appended : List UInt8 → List V) (ops : List (ShardedOp V)) : List UInt8 → List V :=
  ops.foldl (fun appended op => (op.onTotals appended).2) appended

omit [AddCommSemigroup V] [Inhabited V] in
/-- An operation that names keys of `keys` only. -/
def ShardedOp.Over (keys : List UInt8 → Prop) : ShardedOp V → Prop
  | .append key _ => keys key
  | .readTotal key _ => keys key
  | _ => True

namespace ShardedObliviousHistogram
variable {h h' : ShardedObliviousHistogram Z K A S V} {prf : Aes128} {keys : List UInt8 → Prop} {n : Nat}
  {appended : List UInt8 → List V}

/-- One operation returns what the map returns and moves to the next map. -/
theorem Holds.step (sep : Separated prf K keys) (some : n ≠ 0) (few : n ≤ 64) (holds : Holds prf keys n appended h)
    (room : h.router.pending.length < h.router.batchCapacity) {slack : Nat → Nat → Nat → Nat} {op : ShardedOp V}
    (over' : op.Over keys) {out : Option V} (run : h.step math slack op = .ok (out, h')) :
    out = (op.onTotals appended).1 ∧ Holds prf keys n (op.onTotals appended).2 h' ∧
      h'.router.pending.length < h'.router.batchCapacity := by
  cases op with
  | append key val =>
    obtain ⟨g, hg, same⟩ := map_ok run
    obtain ⟨rfl, rfl⟩ := Prod.mk.inj same
    exact ⟨rfl, holds.append sep few room over' hg⟩
  | flush =>
    obtain ⟨g, hg, same⟩ := map_ok run
    obtain ⟨rfl, rfl⟩ := Prod.mk.inj same
    obtain ⟨held, none⟩ := holds.flush few hg
    refine ⟨rfl, held, ?_⟩
    rw [none]
    exact held.positive
  | readTotal key draws =>
    obtain ⟨⟨v, g⟩, hg, run⟩ := bind_ok run
    simp only [pure, Except.pure, Except.ok.injEq, Prod.mk.injEq] at run
    obtain ⟨rfl, rfl⟩ := run
    obtain ⟨value, held⟩ := holds.readTotal sep some few over' hg
    exact ⟨congrArg Option.some value, held⟩
  | grow =>
    obtain ⟨g, hg, same⟩ := map_ok run
    obtain ⟨rfl, rfl⟩ := Prod.mk.inj same
    obtain ⟨shards, grown, hg⟩ := bind_ok hg
    simp only [pure, Except.pure, Except.ok.injEq] at hg
    subst hg
    exact ⟨rfl, holds.of_shards ⟨rfl, rfl, rfl, rfl, rfl⟩ rfl rfl
      (forEachShard_reshuffle (fun _ _ done => grow_reshuffle done) grown), room⟩
  | enableAutoResize cfg =>
    obtain ⟨g, hg, same⟩ := map_ok run
    obtain ⟨rfl, rfl⟩ := Prod.mk.inj same
    obtain ⟨shards, enabled, hg⟩ := bind_ok hg
    simp only [pure, Except.pure, Except.ok.injEq] at hg
    subst hg
    exact ⟨rfl, holds.of_shards ⟨rfl, rfl, rfl, rfl, rfl⟩ rfl rfl (enableShards_reshuffle enabled), room⟩

theorem Holds.run (sep : Separated prf K keys) (some : n ≠ 0) (few : n ≤ 64) (holds : Holds prf keys n appended h)
    (room : h.router.pending.length < h.router.batchCapacity) {slack : Nat → Nat → Nat → Nat} {ops : List (ShardedOp V)}
    (over' : ∀ op ∈ ops, op.Over keys) {outs : List (Option V)} (run : h.run math slack ops = .ok (outs, h')) :
    outs = ShardedOp.totalsRun appended ops ∧ Holds prf keys n (ShardedOp.totalsAfter appended ops) h' := by
  induction ops generalizing h outs appended with
  | nil =>
    simp only [ShardedObliviousHistogram.run, Except.ok.injEq, Prod.mk.injEq] at run
    obtain ⟨rfl, rfl⟩ := run
    exact ⟨rfl, holds⟩
  | cons op ops ih =>
    obtain ⟨out, outs', m, hstep, htail, rfl⟩ := run_cons run
    obtain ⟨value, held, room'⟩ := holds.step sep some few room (over' op (.head _)) hstep
    obtain ⟨values, final⟩ := ih held room' (fun op hop => over' op (.tail _ hop)) htail
    refine ⟨?_, final⟩
    rw [ShardedOp.totalsRun, ← value, ← values]

end ShardedObliviousHistogram

/-- Every read of the sharded histogram returns the values appended under its key since the last read
of it, at whatever fill of the batch it comes. -/
theorem sharded_refines_totals {slack : Nat → Nat → Nat → Nat} {blockSize totalCapacity batchSize quota frontends : Nat}
    {prfs : List Aes128} {prf : Aes128} {keys : List UInt8 → Prop} (few : prfs.length ≤ 64) (positive : 0 < batchSize)
    (even : frontends ∣ batchSize) (sep : Separated prf K keys) {ops : List (ShardedOp V)}
    (over' : ∀ op ∈ ops, op.Over keys) {outs : List (Option V)} {h : ShardedObliviousHistogram Z K A S V}
    (run : ShardedObliviousHistogram.runNew math slack blockSize prfs totalCapacity batchSize quota frontends prf ops =
      .ok (outs, h)) : outs = ShardedOp.totalsRun (fun _ => []) ops := by
  obtain ⟨h₀, start, run⟩ := bind_ok run
  obtain ⟨some, holds, room⟩ := ShardedObliviousHistogram.Holds.new positive even start
  exact (holds.run sep some few room over' run).1

/-- The first read comes on a batch that is half full. -/
theorem sharded_refines_totals_two_keys :
    let ops := [ShardedOp.append [1] 5, .append [2] 7, .append [1] 6, .readTotal [1] id, .grow, .readTotal [2] id]
    ∃ (outs : List (Option Nat)) (h : ShardedObliviousHistogram 1 1 1 4 Nat),
      ShardedObliviousHistogram.runNew .constant (fun _ _ _ => 0) 1 [id, id] 4 2 2 1 id ops = .ok (outs, h) ∧
        outs = ShardedOp.totalsRun (fun _ => []) ops := by
  intro ops
  have run : (ShardedObliviousHistogram.runNew .constant (fun _ _ _ => 0) 1 [id, id] 4 2 2 1 id ops :
    Except Panic (List (Option Nat) × ShardedObliviousHistogram 1 1 1 4 Nat)).toBool = true := by decide +kernel
  obtain ⟨⟨outs, h⟩, run⟩ := exists_of_toBool run
  exact ⟨outs, h, run, sharded_refines_totals (by decide) (by decide) (by decide) separated_pair
    (by simp [ops, ShardedOp.Over]) run⟩

end Roga
