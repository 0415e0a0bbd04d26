import Roga.Sharded.Flush

/-! `increment_blocks` of the batch router: however many blocks it is handed at once, it does what
appending them one by one does. -/
namespace Roga
open Ct
variable {Shard : Type} {K : Nat} {V : Type} [Add V] [Inhabited V]

namespace ShardedBatchRouter
variable (processBatchChunk : Shard → List (OramBlock K V) → Except Panic Unit × Shard)

/-- `while self.pending.len() >= self.batch_capacity`. Without capacity the loop has no end, so it is given fuel. -/
def flushWhileFull : Nat → ShardedBatchRouter Shard K V → Option (Except Panic Unit × ShardedBatchRouter Shard K V)
  | 0, _ => none
  | fuel + 1, router =>
    if router.pending.length ≥ router.batchCapacity then
      match router.flush processBatchChunk with
      | (.ok (), router) => flushWhileFull fuel router
      | (.error e, router) => some (.error e, router)
    else some (.ok (), router)

def incrementBlocks (fuel : Nat) (router : ShardedBatchRouter Shard K V) (blocks : List (OramBlock K V)) :
    Option (Except Panic Unit × ShardedBatchRouter Shard K V) :=
  flushWhileFull processBatchChunk fuel { router with pending := router.pending ++ blocks }

/-- One block, and the flush when the batch is full, as in the `append` of the sharded histogram. -/
def appendBlock (router : ShardedBatchRouter Shard K V) (block : OramBlock K V) :
    Except Panic Unit × ShardedBatchRouter Shard K V :=
  let router := { router with pending := router.pending ++ [block] }
  if router.pending.length ≥ router.batchCapacity then router.flush processBatchChunk else (.ok (), router)

/-- The blocks one by one, up to the first panic. -/
def appendBlocks (router : ShardedBatchRouter Shard K V) :
    List (OramBlock K V) → Except Panic Unit × ShardedBatchRouter Shard K V
  | [] => (.ok (), router)
  | block :: blocks =>
    match router.appendBlock processBatchChunk block with
    | (.ok (), router) => appendBlocks router blocks
    | (.error e, router) => (.error e, router)

variable {processBatchChunk} {router router' : ShardedBatchRouter Shard K V} {xs ys blocks : List (OramBlock K V)}

/-- A flush looks at the first batch only. -/
theorem flush_append (full : xs.length = router.batchCapacity) (some : router.batchCapacity ≠ 0) :
    ({ router with pending := xs ++ ys } : ShardedBatchRouter Shard K V).flush processBatchChunk =
      let (outcome, after) := ({ router with pending := xs } : ShardedBatchRouter Shard K V).flush processBatchChunk
      (outcome, { after with pending := after.pending ++ ys }) := by
  let whole : ShardedBatchRouter Shard K V := { router with pending := xs ++ ys }
  let batch : ShardedBatchRouter Shard K V := { router with pending := xs }
  change whole.flush processBatchChunk = (let (outcome, after) := batch.flush processBatchChunk
    (outcome, { after with pending := after.pending ++ ys }))
  have nonempty : xs ≠ [] := fun none => some (by rw [← full, none]; rfl)
  have padded : whole.padded = xs ++ ys := if_neg (by
    rw [List.length_append, full]
    exact Nat.not_lt.mpr (Nat.le_add_right _ _))
  have padded' : batch.padded = xs := if_neg (Nat.not_lt.mpr full.ge)
  have same : whole.routeBatch whole.padded = batch.routeBatch batch.padded := by
    rw [padded, padded', routeBatch, routeBatch]
    simp only [whole, batch]
    rw [← full, List.take_left, List.take_length]
  have rest : (xs ++ ys).drop router.batchCapacity = xs.drop router.batchCapacity ++ ys := by
    rw [← full, List.drop_left, List.drop_length, List.nil_append]
  cases route : batch.routeBatch batch.padded with
  | error e =>
    rw [flush_of_route_error (fun none => nonempty (List.append_eq_nil_iff.mp none).1) (same.trans route),
      flush_of_route_error nonempty route, padded, padded']
  | ok frontends =>
    rw [flush_of_route_ok (fun none => nonempty (List.append_eq_nil_iff.mp none).1) (same.trans route),
      flush_of_route_ok nonempty route, padded, padded']
    rcases processed : processShards processBatchChunk frontends (router.perShardQuota / router.frontends.length) 0
      router.shards with ⟨_ | _, shards⟩
    · simp only [whole, batch]
    · simp only [whole, batch, rest]

/-- A flush keeps the capacity, and leaves what is past the batch. -/
theorem flush_ok_pending (full : xs.length = router.batchCapacity)
    (run : ({ router with pending := xs } : ShardedBatchRouter Shard K V).flush processBatchChunk = (.ok (), router')) :
    router'.pending = [] ∧ router'.batchCapacity = router.batchCapacity := by
  rcases flush_ok run with ⟨none, rfl⟩ | ⟨-, frontends, shards, -, -, rfl⟩
  · exact ⟨none, rfl⟩
  · exact ⟨List.drop_eq_nil_of_le full.le, rfl⟩

/-- Blocks that do not fill the batch are only collected. -/
theorem appendBlocks_short (short : router.pending.length + blocks.length < router.batchCapacity) :
    router.appendBlocks processBatchChunk blocks = (.ok (), { router with pending := router.pending ++ blocks }) := by
  induction blocks generalizing router with
  | nil => rw [appendBlocks, List.append_nil]
  | cons block blocks ih =>
    have size : (router.pending ++ [block]).length = router.pending.length + 1 := List.length_append
    rw [List.length_cons] at short
    rw [appendBlocks, appendBlock]
    simp only [size, if_neg (show ¬ router.pending.length + 1 ≥ router.batchCapacity by omega)]
    have rest := @ih { router with pending := router.pending ++ [block] } (by simp only [size]; omega)
    rw [rest, List.append_assoc, List.singleton_append]

theorem appendBlocks_append (router : ShardedBatchRouter Shard K V) (xs ys : List (OramBlock K V)) :
    router.appendBlocks processBatchChunk (xs ++ ys) =
      match router.appendBlocks processBatchChunk xs with
      | (.ok (), router) => router.appendBlocks processBatchChunk ys
      | (.error e, router) => (.error e, router) := by
  induction xs generalizing router with
  | nil => rfl
  | cons x xs ih =>
    rw [List.cons_append, appendBlocks, appendBlocks]
    rcases router.appendBlock processBatchChunk x with ⟨_ | _, after⟩
    · rfl
    · exact ih after

/-- Blocks that fill the batch are flushed with the last of them. -/
theorem appendBlocks_full (some : blocks ≠ []) (full : router.pending.length + blocks.length = router.batchCapacity) :
    router.appendBlocks processBatchChunk blocks =
      ({ router with pending := router.pending ++ blocks } : ShardedBatchRouter Shard K V).flush processBatchChunk := by
  have split := List.dropLast_append_getLast some
  generalize blocks.getLast some = last, blocks.dropLast = front at split
  subst split
  rw [List.length_append, List.length_singleton] at full
  have size : (router.pending ++ (front ++ [last])).length = router.batchCapacity := by
    rw [List.length_append, List.length_append, List.length_singleton]
    exact full
  rw [appendBlocks_append, appendBlocks_short (by omega)]
  simp only [appendBlocks, appendBlock, List.append_assoc, if_pos size.ge]
  rcases ({ router with pending := router.pending ++ (front ++ [last]) } : ShardedBatchRouter Shard K V).flush
    processBatchChunk with ⟨_ | _, after⟩ <;> rfl

end ShardedBatchRouter

open ShardedBatchRouter

/-- Given at once or one by one, the blocks leave the same shards and raise the same panic; what a panic leaves pending
may differ. The fuel is never used up. -/
theorem increment_blocks_one_by_one {processBatchChunk : Shard → List (OramBlock K V) → Except Panic Unit × Shard}
    {router : ShardedBatchRouter Shard K V} (room : router.pending.length < router.batchCapacity)
    (blocks : List (OramBlock K V)) {fuel : Nat} (enough : router.pending.length + blocks.length < fuel) :
    ∃ outcome after pending, router.incrementBlocks processBatchChunk fuel blocks = some (outcome, { after with pending }) ∧
      router.appendBlocks processBatchChunk blocks = (outcome, after) ∧
      (outcome = .ok () → after.pending = pending ∧ pending.length < router.batchCapacity) := by
  induction fuel generalizing router blocks with
  | zero => exact absurd enough (Nat.not_lt_zero _)
  | succ fuel ih =>
    rw [incrementBlocks, flushWhileFull]
    by_cases short : router.pending.length + blocks.length < router.batchCapacity
    · have size : ¬ (router.pending ++ blocks).length ≥ router.batchCapacity := by
        rw [List.length_append]
        exact Nat.not_le.mpr short
      refine ⟨.ok (), { router with pending := router.pending ++ blocks }, router.pending ++ blocks, if_neg size,
        appendBlocks_short short, fun _ => ⟨rfl, ?_⟩⟩
      rwa [List.length_append]
    -- the first batch, and the blocks past it
    obtain ⟨front, back, rfl, full⟩ : ∃ front back, blocks = front ++ back ∧
        router.pending.length + front.length = router.batchCapacity := by
      refine ⟨_, _, (List.take_append_drop (router.batchCapacity - router.pending.length) blocks).symm, ?_⟩
      rw [List.length_take]
      omega
    have positive : router.batchCapacity ≠ 0 := by omega
    have nonempty : front ≠ [] := by
      rintro rfl
      rw [List.length_nil] at full
      omega
    have size : (router.pending ++ front).length = router.batchCapacity := by rw [List.length_append, full]
    have batch := @flush_append Shard K V _ _ processBatchChunk router _ back size positive
    rw [List.append_assoc] at batch
    have large : (router.pending ++ (front ++ back)).length ≥ router.batchCapacity := by
      rw [← List.append_assoc, List.length_append, size]
      exact Nat.le_add_right _ _
    rw [if_pos large, batch, appendBlocks_append, appendBlocks_full nonempty full]
    rcases flushed : ({ router with pending := router.pending ++ front } : ShardedBatchRouter Shard K V).flush
      processBatchChunk with ⟨e | _, after⟩
    · exact ⟨.error e, after, _, rfl, rfl, fun ok => nomatch ok⟩
    · obtain ⟨empty, capacity⟩ := flush_ok_pending size flushed
      rw [List.length_append] at enough
      have next := @ih after (by rw [empty, capacity]; exact Nat.pos_of_ne_zero positive) back (by
        rw [empty, List.length_nil]
        omega)
      rw [capacity] at next
      exact next

theorem increment_blocks_one_by_one_three :
    let router : ShardedBatchRouter (List (OramBlock 1 Nat)) 1 Nat := .newWithFrontends [[], []] 2 2 1 id
    let blocks := [OramBlock.real 1 0 5 #v[1], .real 2 0 6 #v[2], .real 3 0 7 #v[3]]
    ∃ outcome after pending, router.incrementBlocks (fun shard chunk => (.ok (), shard ++ chunk)) 4 blocks =
        some (outcome, { after with pending }) ∧
      router.appendBlocks (fun shard chunk => (.ok (), shard ++ chunk)) blocks = (outcome, after) := by
  intro router blocks
  obtain ⟨outcome, after, pending, increment, appended, -⟩ := increment_blocks_one_by_one
    (show router.pending.length < router.batchCapacity by decide) blocks
    (show router.pending.length + blocks.length < 4 by decide)
  exact ⟨outcome, after, pending, increment, appended⟩

end Roga
