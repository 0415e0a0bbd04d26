import Roga.Histogram.Control
import Roga.Histogram.Pace
import Roga.Sharded.Flush
import Roga.Sharded.Histogram

/-! Coordinated growth: the shards take equal steps, whatever they hold, and grow
together when the first of them has asked for it. -/
namespace Roga
open Ct ObliviousHistogram
variable {Z K A S : Nat} {V : Type} {math : ResizeMath}

namespace ObliviousHistogram
variable {h h' g : ObliviousHistogram Z K A S V}

/-- Whether the estimator defers its growths and asks for them, if it is on. -/
def role (h : ObliviousHistogram Z K A S V) : Option (Bool × Bool) :=
  h.autoResize.map fun auto => (auto.deferred, auto.emitsGrowSignal)

/-- The growth that has been asked for. -/
def pendingGrow (h : ObliviousHistogram Z K A S V) : Option Nat := h.autoResize.bind AutoResizeState.pendingGrow

/-- Calls of `evaluate_signal` in a deferring tree: a growth is pending afterwards when it was before,
or when a call of the coordinator asked for one. -/
structure Raised (h : ObliviousHistogram Z K A S V) (new : List (Nat × Option Nat)) (h' : ObliviousHistogram Z K A S V) :
    Prop where
  role : h'.role = h.role
  signals : signalsOf h'.trace = new ++ signalsOf h.trace
  pending : h'.pendingGrow.isSome = true ↔
    h.pendingGrow.isSome = true ∨ h.role = some (true, true) ∧ ∃ call ∈ new, call.2.isSome = true
  off : h.role = none → new = []

theorem Raised.of_same (autoResize : h'.autoResize = h.autoResize) (signals : signalsOf h'.trace = signalsOf h.trace) :
    Raised h [] h' := by
  refine ⟨by rw [ObliviousHistogram.role, autoResize]; rfl, signals, ?_, fun _ => rfl⟩
  rw [pendingGrow, pendingGrow, autoResize]
  simp

theorem Raised.trans {new later : List (Nat × Option Nat)} (first : Raised h new g) (second : Raised g later h') :
    Raised h (later ++ new) h' := by
  refine ⟨second.role.trans first.role, ?_, ?_, fun off => ?_⟩
  · rw [second.signals, first.signals, List.append_assoc]
  · rw [second.pending, first.pending, first.role]
    constructor
    · rintro ((before | ⟨role, call, hcall, some⟩) | ⟨role, call, hcall, some⟩)
      · exact .inl before
      · exact .inr ⟨role, call, List.mem_append_right _ hcall, some⟩
      · exact .inr ⟨role, call, List.mem_append_left _ hcall, some⟩
    · rintro (before | ⟨role, call, hcall, some⟩)
      · exact .inl (.inl before)
      · rcases List.mem_append.mp hcall with hcall | hcall
        · exact .inr ⟨role, call, hcall, some⟩
        · exact .inl (.inr ⟨role, call, hcall, some⟩)
  · rw [second.off (first.role.trans off), first.off off, List.append_nil]

section Serve
variable [Add V] [Inhabited V]

/-- A deferring tree records what its checks ask for. -/
theorem evictAfterInsert_raised (defers : h.mode ≠ some false) (run : h.evictAfterInsert math = .ok h') :
    ∃ new, Raised h new h' := by
  cases evictAfterInsert_control run with
  | off ticked before after signals => exact ⟨[], .of_same (after.trans before.symm) signals⟩
  | counted ticked auto before early after signals =>
    refine ⟨[], ⟨?_, signals, ?_, fun _ => rfl⟩⟩
    · rw [role, role, before, after]
      rfl
    · rw [pendingGrow, pendingGrow, before, after]
      simp [AutoResizeState.recordEviction]
  | checked ticked auto before due signal next evaluated kept after signals =>
    obtain ⟨-, -, -, -, deferred, emits, -⟩ := evaluateSignal_spec evaluated
    refine ⟨[(auto.cSum + h.evictCount, signal)], ⟨?_, signals, ?_, fun off => ?_⟩⟩
    · rw [role, role, before, after, Option.map_some, Option.map_some]
      exact congrArg some (Prod.ext deferred emits)
    · have mode : auto.deferred = true := by
        rw [ObliviousHistogram.mode, before, Option.map_some] at defers
        simpa using defers
      rw [pendingGrow, pendingGrow, role, before, after, Option.bind_some, Option.bind_some, Option.map_some, mode,
        Bool.true_and]
      cases emitter : auto.emitsGrowSignal with
      | true =>
        -- the coordinator checks only while nothing is pending
        have idle : auto.pendingGrow = none := by
          rw [AutoResizeState.shouldCheckEpoch, Bool.and_eq_true] at due
          have idle := due.1
          rw [show (auto.recordEviction h.evictCount).emitsGrowSignal = true from emitter, Bool.not_true, Bool.false_or] at idle
          exact Option.isNone_iff_eq_none.mp idle
        rw [idle]
        simp
      | false => simp
    · rw [role, before] at off
      cases off
  | grown auto before due target next evaluated immediate m ticked middle grown signals =>
    rw [mode, before, Option.map_some, immediate] at defers
    exact absurd rfl defers

/-- `n` insert slots that never grow the tree. -/
structure Served (h : ObliviousHistogram Z K A S V) (n : Nat) (new : List (Nat × Option Nat))
    (h' : ObliviousHistogram Z K A S V) : Prop where
  kept : Kept h (List.replicate n (.slot false)) h'
  raised : Raised h new h'
  inv : h'.Inv fun _ => True

omit [Add V] [Inhabited V] in
theorem Served.trans {n m : Nat} {new later : List (Nat × Option Nat)} (first : Served h n new g)
    (second : Served g m later h') : Served h (n + m) (later ++ new) h' := by
  refine ⟨?_, first.raised.trans second.raised, second.inv⟩
  rw [List.replicate_add]
  exact first.kept.trans second.kept

theorem appendPreparedMaskedBatch_raised (inv : h.Inv fun _ => True) (defers : h.mode ≠ some false)
    {updates : List (PreparedUpdate K V)} (run : h.appendPreparedMaskedBatch math updates = .ok h') :
    ∃ new, Raised h new h' := by
  induction hn : updates.length using Nat.strong_induction_on generalizing h updates with
  | _ n ih =>
    by_cases none : updates = []
    · rw [none, appendPreparedMaskedBatch, dif_pos rfl, Except.ok.injEq] at run
      exact ⟨[], run ▸ .of_same rfl rfl⟩
    obtain ⟨progress, m, e, filled, evicted, rest⟩ := batch_filled inv (fun _ _ _ _ => trivial) none run
    have fill : Raised h [] m := .of_same filled.autoResize filled.signals
    have mode : m.mode ≠ some false := by rwa [ObliviousHistogram.mode, filled.autoResize]
    have moved := evictIf_reshuffle filled.inv.shape.height_le evicted
    obtain ⟨first, raised, defers'⟩ : ∃ first, Raised m first e ∧ e.mode ≠ some false := by
      split at evicted
      · obtain ⟨new, raised⟩ := evictAfterInsert_raised mode evicted
        obtain ⟨-, -, -, -, same, -⟩ := evictAfterInsert_counters evicted
        exact ⟨new, raised, same ▸ mode⟩
      · simp only [Except.ok.injEq] at evicted
        exact ⟨[], evicted ▸ .of_same rfl rfl, evicted ▸ mode⟩
    obtain ⟨later, tail⟩ := ih _ (by
      have := List.length_pos_iff.mpr none
      rw [List.length_drop]
      omega) (moved.inv filled.inv) defers' rest rfl
    exact ⟨_, fill.trans (raised.trans tail)⟩

/-- A batch fills as many slots as it has updates, masked or not. -/
theorem appendPreparedMaskedBatch_served (inv : h.Inv fun _ => True) (defers : h.mode ≠ some false)
    {updates : List (PreparedUpdate K V)} (run : h.appendPreparedMaskedBatch math updates = .ok h') :
    ∃ new, Served h updates.length new h' := by
  obtain ⟨new, raised⟩ := appendPreparedMaskedBatch_raised inv defers run
  obtain ⟨grews, length, immediate, kept⟩ := appendPreparedMaskedBatch_kept run
  have none : grews = List.replicate updates.length false := by
    rw [List.eq_replicate_iff]
    refine ⟨length, fun grew hgrew => ?_⟩
    cases grew with
    | false => rfl
    | true => exact absurd (immediate hgrew) defers
  rw [none, List.map_replicate] at kept
  exact ⟨new, kept, raised, (appendPreparedMaskedBatch_inv inv (fun _ _ _ _ => trivial) run).1⟩

end Serve

section Deferred
variable [Add V] [Inhabited V]

omit [Add V] in
/-- A coordinated growth leaves nothing pending. -/
theorem applyDeferredAutoResizeGrow_idle {target : Nat} (run : h.applyDeferredAutoResizeGrow math target = .ok h') :
    h'.role = h.role ∧ h'.pendingGrow = none ∧ signalsOf h'.trace = signalsOf h.trace := by
  have grown := applyDeferredAutoResizeGrow_grown run
  refine ⟨?_, ?_, grown.signals⟩
  · rw [role, role, grown.autoResize, Option.map_map, Option.map_map]
    rfl
  · rw [pendingGrow, grown.autoResize]
    cases h.autoResize with
    | none => rfl
    | some auto => rfl

theorem grow_idle (run : h.grow math = .ok h') :
    h'.role = h.role ∧ h'.pendingGrow = h.pendingGrow ∧ signalsOf h'.trace = signalsOf h.trace := by
  have grown := grow_grown run
  refine ⟨?_, ?_, grown.signals⟩
  · rw [role, role, grown.autoResize, Option.map_map]
    rfl
  · rw [pendingGrow, pendingGrow, grown.autoResize]
    cases h.autoResize with
    | none => rfl
    | some auto => rfl

omit [Add V] [Inhabited V] in
theorem Still.idle (still : Still h h') :
    h'.role = h.role ∧ h'.pendingGrow = h.pendingGrow ∧ signalsOf h'.trace = signalsOf h.trace := by
  rw [role, role, pendingGrow, pendingGrow, still.autoResize]
  exact ⟨rfl, rfl, still.signals⟩

end Deferred
end ObliviousHistogram

section Lists
variable {Shard Shard' : Type}

theorem forall_mem_right {R : Shard → Shard' → Prop} {p : Shard' → Prop} {shards : List Shard} {shards' : List Shard'}
    (all : List.Forall₂ R shards shards') (each : ∀ shard shard', R shard shard' → p shard') : ∀ shard' ∈ shards', p shard' := by
  induction all with
  | nil => exact fun _ h => absurd h List.not_mem_nil
  | cons first _ ih => exact List.forall_mem_cons.mpr ⟨each _ _ first, ih⟩

theorem forall₂_comp {Shard'' : Type} {R : Shard → Shard' → Prop} {R' : Shard' → Shard'' → Prop} {T : Shard → Shard'' → Prop}
    (comp : ∀ shard shard' shard'', R shard shard' → R' shard' shard'' → T shard shard'') {shards : List Shard}
    {shards' : List Shard'} {shards'' : List Shard''} (first : List.Forall₂ R shards shards')
    (second : List.Forall₂ R' shards' shards'') : List.Forall₂ T shards shards'' := by
  induction first generalizing shards'' with
  | nil =>
    cases second
    exact .nil
  | cons head _ ih =>
    obtain ⟨shard'', rest, next, tail, rfl⟩ := List.forall₂_cons_left_iff.mp second
    exact .cons (comp _ _ _ head next) (ih tail)

theorem forEachShard_ok {f : Shard → Except Panic Shard} {shards shards' : List Shard}
    (run : forEachShard f shards = .ok shards') : List.Forall₂ (fun shard shard' => f shard = .ok shard') shards shards' := by
  induction shards generalizing shards' with
  | nil =>
    obtain rfl := Except.ok.inj run
    exact .nil
  | cons shard shards ih =>
    obtain ⟨first, hfirst, run⟩ := bind_ok run
    obtain ⟨rest, hrest, rfl⟩ := map_ok run
    exact .cons hfirst (ih hrest)

variable {K : Nat} {V : Type} [Add V] [Inhabited V]
  {processBatchChunk : Shard → List (OramBlock K V) → Except Panic Unit × Shard}

omit [Add V] [Inhabited V] in
/-- Each shard has processed its chunks. -/
theorem processShards_ok {frontends : List (RouterFrontend K V)} {subQuota s : Nat} {shards shards' : List Shard}
    (run : ShardedBatchRouter.processShards processBatchChunk frontends subQuota s shards = (.ok (), shards')) :
    List.Forall₂ (fun shard shard' => ∃ i < s + shards.length, ShardedBatchRouter.processShard processBatchChunk shard
      (ShardedBatchRouter.shardChunks frontends subQuota i) = (.ok (), shard')) shards shards' := by
  induction shards generalizing s shards' with
  | nil =>
    obtain ⟨-, rfl⟩ := Prod.mk.inj run
    exact .nil
  | cons shard shards ih =>
    rw [ShardedBatchRouter.processShards] at run
    split at run
    · rename_i next hnext
      rcases rest : ShardedBatchRouter.processShards processBatchChunk frontends subQuota (s + 1) shards with ⟨_ | _, tail⟩
      · rw [rest] at run
        cases run
      · rw [rest] at run
        obtain ⟨-, rfl⟩ := Prod.mk.inj run
        refine .cons ⟨s, by rw [List.length_cons]; omega, hnext⟩ ((ih rest).imp ?_)
        rintro shard shard' ⟨i, hi, done⟩
        exact ⟨i, by rw [List.length_cons]; omega, done⟩
    · cases run

theorem processSubBatch_length {batch : List (OramBlock K V)} {shardCount quota : Nat} {frontend : RouterFrontend K V}
    (run : processSubBatch batch shardCount quota = .ok frontend) : frontend.routerBlocks.length = shardCount * quota := by
  rw [processSubBatch] at run
  split at run
  · cases run
  · simp only at run
    split at run
    · obtain rfl := Except.ok.inj run
      rw [distributePayload_length, resizeBlocks_length]
    · cases run

/-- Every shard is handed the sub-quota of each frontend. -/
theorem shardChunks_length {router : ShardedBatchRouter Shard K V} {batch : List (OramBlock K V)}
    {frontends : List (RouterFrontend K V)} (full : router.batchCapacity ≤ batch.length)
    (run : router.routeBatch batch = .ok frontends) {s : Nat} (hs : s < router.shardCount) :
    frontends.length = router.frontends.length ∧
      (ShardedBatchRouter.shardChunks frontends (router.perShardQuota / router.frontends.length) s).flatten.length =
        router.frontends.length * (router.perShardQuota / router.frontends.length) := by
  obtain ⟨-, processed⟩ := ShardedBatchRouter.routeBatch_ok full run
  have count : frontends.length = router.frontends.length := by
    rw [← processed.length_eq, List.length_range]
  have each : ∀ frontend ∈ frontends, frontend.routerBlocks.length =
      router.shardCount * (router.perShardQuota / router.frontends.length) :=
    forall_mem_right processed fun _ _ done => processSubBatch_length done
  refine ⟨count, ?_⟩
  rw [← count] at each ⊢
  have sizes : frontends.map (List.length ∘ fun f => bucketAt (router.perShardQuota / frontends.length) f.routerBlocks s) =
      List.replicate frontends.length (router.perShardQuota / frontends.length) :=
    List.map_eq_replicate_iff.mpr fun frontend hfrontend =>
      bucketAt_length ((bucket_fits hs).trans_eq (each frontend hfrontend).symm)
  rw [ShardedBatchRouter.shardChunks, List.length_flatten, List.map_map, sizes, List.sum_replicate, smul_eq_mul]

end Lists

namespace ShardedObliviousHistogram
variable {h h' : ShardedObliviousHistogram Z K A S V} {c : Counters} {tree tree' : ObliviousHistogram Z K A S V}
  {auto emits : Bool}

/-- A shard between two operations: nothing is pending. -/
structure Idle (auto emits : Bool) (c : Counters) (tree : ObliviousHistogram Z K A S V) : Prop where
  inv : tree.Inv fun _ => True
  counters : tree.counters = c
  role : tree.role = if auto then some (true, emits) else none
  idle : tree.pendingGrow = none

/-- Equal counters, and the first shard is the coordinator. -/
structure Coordinated (c : Counters) (h : ShardedObliviousHistogram Z K A S V) : Prop where
  formed : h.router.Formed
  shards : ∃ first rest, h.router.shards = first :: rest ∧ Idle h.autoResize true c first ∧
    ∀ tree ∈ rest, Idle h.autoResize false c tree

/-- The sizes of the router, which no operation changes. -/
structure Framed (h h' : ShardedObliviousHistogram Z K A S V) : Prop where
  prf : h'.router.prf = h.router.prf
  shardCount : h'.router.shardCount = h.router.shardCount
  batchCapacity : h'.router.batchCapacity = h.router.batchCapacity
  perShardQuota : h'.router.perShardQuota = h.router.perShardQuota
  frontendCount : h'.router.frontendCount = h.router.frontendCount

theorem Framed.refl (h : ShardedObliviousHistogram Z K A S V) : Framed h h := ⟨rfl, rfl, rfl, rfl, rfl⟩

theorem Framed.trans {g : ShardedObliviousHistogram Z K A S V} (first : Framed h g) (second : Framed g h') : Framed h h' :=
  ⟨second.prf.trans first.prf, second.shardCount.trans first.shardCount, second.batchCapacity.trans first.batchCapacity,
    second.perShardQuota.trans first.perShardQuota, second.frontendCount.trans first.frontendCount⟩

theorem Idle.defers (idle : Idle auto emits c tree) : tree.mode ≠ some false := by
  have mode : tree.mode = tree.role.map Prod.fst := by
    rw [mode, ObliviousHistogram.role, Option.map_map]
    rfl
  rw [mode, idle.role]
  cases auto <;> simp

/-- The slots of a flush. -/
def flushSlots (router : ShardedBatchRouter (ObliviousHistogram Z K A S V) K V) : Nat :=
  if router.pending.isEmpty then 0 else router.frontendCount * (router.perShardQuota / router.frontendCount)

/-- The moves of a flush in which the coordinator has made the calls. -/
def flushMoves (h : ShardedObliviousHistogram Z K A S V) (calls : List (Nat × Option Nat)) : List Move :=
  List.replicate (flushSlots h.router) (.slot false) ++ if calls.any fun call => call.2.isSome then [.grow] else []

section Flush
variable [Add V] [Inhabited V]

theorem flushRouter_ok (run : h.flushRouter math = .ok h') :
    (h.router.pending = [] ∧ h' = h) ∨
    (h.router.pending ≠ [] ∧ ∃ frontends shards, h.router.routeBatch h.router.padded = .ok frontends ∧
      ShardedBatchRouter.processShards (processBatchChunk math) frontends
        (h.router.perShardQuota / h.router.frontends.length) 0 h.router.shards = (.ok (), shards) ∧
      h' = { h with router := { h.router with
        pending := h.router.pending.drop h.router.batchCapacity, frontends, shards } }) := by
  rw [flushRouter] at run
  split at run
  swap
  · cases run
  rename_i router flushed
  obtain rfl := Except.ok.inj run
  rcases ShardedBatchRouter.flush_ok flushed with ⟨none, rfl⟩ | ⟨some, frontends, shards, route, processed, rfl⟩
  · exact .inl ⟨none, rfl⟩
  · exact .inr ⟨some, frontends, shards, route, processed, rfl⟩

omit [Add V] in
/-- The first shard is asked for a signal, and all of them follow it. -/
theorem handleDeferredResize_ok (run : h.handleDeferredResize math = .ok h') :
    ((h.autoResize = false ∨ h.router.shards = []) ∧ h' = h) ∨
    (h.autoResize = true ∧ ∃ first rest signal ready, h.router.shards = first :: rest ∧
      first.takeDeferredAutoResizeSignal = .ok (signal, ready) ∧
      ((signal = none ∧ h' = { h with router := { h.router with shards := ready :: rest } }) ∨
        ∃ target grown, signal = some target ∧
          forEachShard (fun tree => tree.applyDeferredAutoResizeGrow math target) (ready :: rest) = .ok grown ∧
          h' = { h with
            router := { h.router with shards := grown }
            capacity := h.capacity * 2
            sizeInBytes := h.sizeInBytes * 2 })) := by
  rw [handleDeferredResize] at run
  cases enabled : h.autoResize with
  | false =>
    rw [enabled, Bool.not_false, if_pos rfl] at run
    exact .inl ⟨.inl rfl, (Except.ok.inj run).symm⟩
  | true =>
    rw [enabled, Bool.not_true, if_neg Bool.false_ne_true] at run
    cases shards : h.router.shards with
    | nil =>
      rw [shards] at run
      exact .inl ⟨.inr rfl, (Except.ok.inj run).symm⟩
    | cons first rest =>
      rw [shards] at run
      obtain ⟨⟨signal, ready⟩, taken, run⟩ := bind_ok run
      refine .inr ⟨rfl, first, rest, signal, ready, rfl, taken, ?_⟩
      cases signal with
      | none =>
        simp only [pure, Except.pure, Except.ok.injEq] at run
        exact .inl ⟨rfl, run.symm⟩
      | some target =>
        obtain ⟨grown, applied, run⟩ := bind_ok run
        simp only [pure, Except.pure, Except.ok.injEq] at run
        exact .inr ⟨target, grown, rfl, applied, run.symm⟩

theorem processShard_served (inv : tree.Inv fun _ => True) (defers : tree.mode ≠ some false)
    {chunks : List (List (OramBlock K V))}
    (run : ShardedBatchRouter.processShard (processBatchChunk math) tree chunks = (.ok (), tree')) :
    ∃ new, Served tree chunks.flatten.length new tree' := by
  induction chunks generalizing tree with
  | nil =>
    obtain ⟨-, rfl⟩ := Prod.mk.inj run
    exact ⟨[], .refl tree, .of_same rfl rfl, inv⟩
  | cons chunk chunks ih =>
    rw [ShardedBatchRouter.processShard] at run
    split at run
    · rename_i next hnext
      rw [processBatchChunk] at hnext
      split at hnext
      · rename_i next' appended
        obtain ⟨-, rfl⟩ := Prod.mk.inj hnext
        obtain ⟨new, first⟩ := appendPreparedMaskedBatch_served inv defers appended
        rw [List.length_map] at first
        obtain ⟨later, rest⟩ := ih first.inv (first.kept.mode ▸ defers) run
        refine ⟨later ++ new, ?_⟩
        rw [List.flatten_cons, List.length_append]
        exact first.trans rest
      · cases hnext
    · cases run

/-- The router hands every shard the same number of slots. -/
theorem flushRouter_served (formed : h.router.Formed)
    (ready : ∀ tree ∈ h.router.shards, (tree.Inv fun _ => True) ∧ tree.mode ≠ some false)
    (run : h.flushRouter math = .ok h') : h'.router.Formed ∧ Framed h h' ∧ h'.epoch = h.epoch ∧
      h'.capacity = h.capacity ∧ h'.sizeInBytes = h.sizeInBytes ∧ h'.autoResize = h.autoResize ∧
      List.Forall₂ (fun tree tree' => ∃ new, Served tree (flushSlots h.router) new tree') h.router.shards
        h'.router.shards := by
  rcases flushRouter_ok run with ⟨none, rfl⟩ | ⟨some, frontends, shards, route, processed, rfl⟩
  · refine ⟨formed, .refl h', rfl, rfl, rfl, rfl, List.forall₂_same.mpr fun tree htree => ⟨[], ?_⟩⟩
    rw [flushSlots, none]
    exact ⟨.refl tree, .of_same rfl rfl, (ready tree htree).1⟩
  · have slots : flushSlots h.router = h.router.frontends.length * (h.router.perShardQuota / h.router.frontends.length) := by
      rw [flushSlots, if_neg (by simpa using some), formed.frontends]
    have lengths := fun s => @shardChunks_length _ _ _ _ _ h.router h.router.padded frontends h.router.padded_length route s
    have served : List.Forall₂ (fun tree tree' => ∃ new, Served tree (flushSlots h.router) new tree') h.router.shards
        shards := by
      have done := (List.forall₂_and_left _ _).mpr ⟨ready, processShards_ok processed⟩
      refine done.imp ?_
      rintro tree tree' ⟨⟨inv, defers⟩, s, hs, done⟩
      have size := (lengths s (by rw [formed.shards]; omega)).2
      rw [slots, ← size]
      exact processShard_served inv defers done
    refine ⟨⟨formed.shards.trans served.length_eq, ?_, formed.frontend⟩, ⟨rfl, rfl, rfl, rfl, rfl⟩, rfl, rfl, rfl, rfl, served⟩
    have nonempty : frontends.length = h.router.frontends.length := by
      obtain ⟨-, processed⟩ := ShardedBatchRouter.routeBatch_ok h.router.padded_length route
      rw [← processed.length_eq, List.length_range]
    exact nonempty.trans formed.frontends

/-- What a flush has done. -/
structure Flushed (c : Counters) (h : ShardedObliviousHistogram Z K A S V) (calls : List (Nat × Option Nat))
    (h' : ShardedObliviousHistogram Z K A S V) : Prop where
  coordinated : Coordinated (c.run A (flushMoves h calls)) h'
  framed : Framed h h'
  epoch : h'.epoch = h.epoch
  autoResize : h'.autoResize = h.autoResize
  capacity : h'.capacity = if calls.any fun call => call.2.isSome then h.capacity * 2 else h.capacity
  sizeInBytes : h'.sizeInBytes = if calls.any fun call => call.2.isSome then h.sizeInBytes * 2 else h.sizeInBytes
  moved : List.Forall₂ (fun tree tree' => Moved tree (flushMoves h calls) tree') h.router.shards h'.router.shards
  calls : ∃ first first', h.router.shards.head? = some first ∧ h'.router.shards.head? = some first' ∧
    signalsOf first'.trace = calls ++ signalsOf first.trace

omit [Add V] [Inhabited V] in
/-- A shard that has taken its slots, before the pending growth is looked at. -/
theorem Idle.served (idle : Idle auto emits c tree) {n : Nat} {new : List (Nat × Option Nat)}
    (served : Served tree n new tree') :
    tree'.role = (if auto then some (true, emits) else none) ∧
      (tree'.pendingGrow.isSome = true ↔ auto = true ∧ emits = true ∧ (new.any fun call => call.2.isSome) = true) ∧
      tree'.counters = c.run A (List.replicate n (.slot false)) := by
  refine ⟨served.raised.role.trans idle.role, ?_, idle.counters ▸ served.kept.counters⟩
  rw [served.raised.pending, idle.idle, idle.role, List.any_eq_true]
  cases auto <;> simp

/-- A shard after the synchronisation point. -/
structure Settled (moves : List Move) (tree tree' : ObliviousHistogram Z K A S V) : Prop where
  kept : Kept tree moves tree'
  inv : tree'.Inv fun _ => True
  role : tree'.role = tree.role
  idle : tree'.pendingGrow = none
  signals : signalsOf tree'.trace = signalsOf tree.trace

theorem takeDeferredAutoResizeSignal_settled (inv : tree.Inv fun _ => True) {signal : Option Nat}
    (run : tree.takeDeferredAutoResizeSignal = .ok (signal, tree')) :
    signal = tree.pendingGrow ∧ Settled [] tree tree' := by
  have kept := takeDeferredAutoResizeSignal_kept run
  have still := (takeDeferredAutoResizeSignal_reshuffle run).inv inv
  obtain ⟨auto, enabled, -, -, rfl, rfl⟩ := takeDeferredAutoResizeSignal_spec run
  refine ⟨by rw [pendingGrow, enabled]; rfl, kept, still, ?_, rfl, rfl⟩
  rw [role, role, enabled]
  rfl

theorem applyDeferredAutoResizeGrow_settled (inv : tree.Inv fun _ => True) {target : Nat}
    (run : tree.applyDeferredAutoResizeGrow math target = .ok tree') : Settled [.grow] tree tree' := by
  obtain ⟨role, idle, signals⟩ := applyDeferredAutoResizeGrow_idle run
  exact ⟨applyDeferredAutoResizeGrow_kept run, (applyDeferredAutoResizeGrow_reshuffle run).inv inv, role, idle, signals⟩

omit [Add V] [Inhabited V] in
theorem Settled.trans {g : ObliviousHistogram Z K A S V} {ms ns : List Move} (first : Settled ms tree g)
    (second : Settled ns g tree') : Settled (ms ++ ns) tree tree' :=
  ⟨first.kept.trans second.kept, second.inv, second.role.trans first.role, second.idle, second.signals.trans first.signals⟩

/-- At the synchronisation point all shards grow, or none. -/
theorem handleDeferredResize_spec {first : ObliviousHistogram Z K A S V} {rest : List (ObliviousHistogram Z K A S V)}
    (shards : h.router.shards = first :: rest) (inv : ∀ tree ∈ h.router.shards, tree.Inv fun _ => True)
    (off : h.autoResize = false → first.pendingGrow = none) (idle : ∀ tree ∈ rest, tree.pendingGrow = none)
    (run : h.handleDeferredResize math = .ok h') :
    (h.router.Formed → h'.router.Formed) ∧ Framed h h' ∧ h'.epoch = h.epoch ∧ h'.autoResize = h.autoResize ∧
    (h'.capacity = if first.pendingGrow.isSome then h.capacity * 2 else h.capacity) ∧
    (h'.sizeInBytes = if first.pendingGrow.isSome then h.sizeInBytes * 2 else h.sizeInBytes) ∧
    List.Forall₂ (Settled (if first.pendingGrow.isSome then [.grow] else [])) h.router.shards h'.router.shards := by
  have still : ∀ tree ∈ h.router.shards, tree.pendingGrow = none → Settled [] tree tree := fun tree htree none =>
    ⟨.refl tree, inv tree htree, rfl, none, rfl⟩
  have rest_still : List.Forall₂ (Settled []) rest rest := List.forall₂_same.mpr fun tree htree =>
    still tree (shards ▸ .tail _ htree) (idle tree htree)
  rcases handleDeferredResize_ok run with ⟨disabled, rfl⟩ | ⟨-, first', rest', signal, ready, shards', taken, outcome⟩
  · have none := off (disabled.resolve_right (by simp [shards]))
    rw [none, shards]
    exact ⟨id, .refl h', rfl, rfl, rfl, rfl, .cons (still first (shards ▸ .head _) none) rest_still⟩
  obtain ⟨rfl, rfl⟩ := List.cons.inj (shards.symm.trans shards')
  rw [shards] at inv ⊢
  obtain ⟨rfl, settled⟩ := takeDeferredAutoResizeSignal_settled (inv first (.head _)) taken
  rcases outcome with ⟨none, rfl⟩ | ⟨target, grown, pending, applied, rfl⟩
  · rw [none]
    have all : List.Forall₂ (Settled []) (first :: rest) (ready :: rest) := .cons settled rest_still
    exact ⟨fun formed => ⟨formed.shards.trans ((congrArg List.length shards).trans all.length_eq), formed.frontends,
      formed.frontend⟩, ⟨rfl, rfl, rfl, rfl, rfl⟩, rfl, rfl, rfl, rfl, all⟩
  · rw [pending]
    have all : List.Forall₂ (Settled [.grow]) (first :: rest) grown := by
      cases forEachShard_ok applied with
      | cons head tail =>
        refine .cons (settled.trans (applyDeferredAutoResizeGrow_settled settled.inv head)) ?_
        have ready := (List.forall₂_and_left _ _).mpr ⟨fun tree htree => inv tree (.tail _ htree), tail⟩
        exact ready.imp fun tree tree' done => applyDeferredAutoResizeGrow_settled done.1 done.2
    exact ⟨fun formed => ⟨formed.shards.trans ((congrArg List.length shards).trans all.length_eq), formed.frontends,
      formed.frontend⟩, ⟨rfl, rfl, rfl, rfl, rfl⟩, rfl, rfl, rfl, rfl, all⟩

omit [Add V] [Inhabited V] in
theorem Idle.settled {tree'' : ObliviousHistogram Z K A S V} {moves : List Move} {n : Nat} {new : List (Nat × Option Nat)}
    (idle : Idle auto emits c tree) (served : Served tree n new tree') (settled : Settled moves tree' tree'') :
    Moved tree (List.replicate n (.slot false) ++ moves) tree'' ∧
      Idle auto emits (c.run A (List.replicate n (.slot false) ++ moves)) tree'' := by
  have moved := (served.kept.trans settled.kept).toMoved
  exact ⟨moved, settled.inv, idle.counters ▸ moved.counters, settled.role.trans (idle.served served).1, settled.idle⟩

/-- Whatever the shards hold, a flush takes them through equal moves: the slots of the frontends, and
a growth if the coordinator has asked for one. -/
theorem flush_coordinated (coordinated : Coordinated c h) (run : h.flush math = .ok h') :
    ∃ calls, Flushed c h calls h' := by
  obtain ⟨g, routed, run⟩ := bind_ok run
  obtain ⟨first, rest, shards, coordinator, others⟩ := coordinated.shards
  have ready : ∀ tree ∈ h.router.shards, (tree.Inv fun _ => True) ∧ tree.mode ≠ some false := by
    rw [shards]
    exact List.forall_mem_cons.mpr ⟨⟨coordinator.inv, coordinator.defers⟩, fun tree htree =>
      ⟨(others tree htree).inv, (others tree htree).defers⟩⟩
  obtain ⟨formed, framed, epoch, capacity, size, auto, served⟩ := flushRouter_served coordinated.formed ready routed
  cases gs : g.router.shards with
  | nil =>
    rw [shards, gs] at served
    cases served
  | cons first' rest' =>
    rw [shards, gs] at served
    obtain ⟨⟨calls, sfirst⟩, srest⟩ := List.forall₂_cons.mp served
    have grew : first'.pendingGrow.isSome = calls.any fun call => call.2.isSome := by
      obtain ⟨-, pending, -⟩ := coordinator.served sfirst
      rw [Bool.eq_iff_iff, pending]
      constructor
      · exact fun both => both.2.2
      · intro asked
        refine ⟨?_, rfl, asked⟩
        cases on : h.autoResize with
        | true => rfl
        | false =>
          have none := sfirst.raised.off (by rw [coordinator.role, on]; rfl)
          rw [none] at asked
          exact absurd asked Bool.false_ne_true
    have quiet : ∀ tree ∈ rest', tree.pendingGrow = none ∧ tree.Inv fun _ => True := by
      refine forall_mem_right ((List.forall₂_and_left _ _).mpr ⟨others, srest⟩) ?_
      rintro tree tree' ⟨idle, new, served⟩
      obtain ⟨-, pending, -⟩ := idle.served served
      exact ⟨Option.not_isSome_iff_eq_none.mp fun some => Bool.false_ne_true (pending.mp some).2.1, served.inv⟩
    obtain ⟨formed', framed', epoch', auto', capacity', size', settled⟩ := handleDeferredResize_spec gs (by
      rw [gs]
      exact List.forall_mem_cons.mpr ⟨sfirst.inv, fun tree htree => (quiet tree htree).2⟩) (by
      intro off
      refine Option.not_isSome_iff_eq_none.mp fun some => ?_
      have on := ((coordinator.served sfirst).2.1.mp some).1
      rw [← auto, off] at on
      exact Bool.false_ne_true on) (fun tree htree => (quiet tree htree).1) run
    rw [grew] at capacity' size' settled
    rw [gs] at settled
    obtain ⟨first'', rest'', hfirst, hrest, shards''⟩ := List.forall₂_cons_left_iff.mp settled
    have head := coordinator.settled sfirst hfirst
    have tail := forall₂_comp (fun tree tree' tree'' served settled => by
      obtain ⟨idle, new, served⟩ := served
      exact idle.settled served settled) ((List.forall₂_and_left _ _).mpr ⟨others, srest⟩) hrest
    refine ⟨calls, ⟨formed' formed, first'', rest'', shards'', ?_, ?_⟩, framed.trans framed', epoch'.trans epoch,
      auto'.trans auto, ?_, ?_, ?_, first, first'', ?_, ?_, hfirst.signals.trans sfirst.raised.signals⟩
    · rw [auto', auto]
      exact head.2
    · rw [auto', auto]
      exact forall_mem_right tail fun _ _ done => done.2
    · rw [capacity', capacity]
    · rw [size', size]
    · rw [shards, shards'']
      exact .cons head.1 (tail.imp fun _ _ done => done.1)
    · rw [shards]
      rfl
    · rw [shards'']
      rfl

end Flush

section Steps
variable [Add V] [Inhabited V]

omit [Add V] [Inhabited V] in
/-- Shards that each stay between two operations stay coordinated. -/
theorem Coordinated.of_shards {c' : Counters} (coordinated : Coordinated c h) (frontends : h'.router.frontends = h.router.frontends)
    (framed : Framed h h') (auto : h'.autoResize = h.autoResize)
    (all : List.Forall₂ (fun tree tree' => ∀ auto emits, Idle auto emits c tree → Idle auto emits c' tree')
      h.router.shards h'.router.shards) : Coordinated c' h' := by
  have formed := coordinated.formed
  obtain ⟨first, rest, shards, coordinator, others⟩ := coordinated.shards
  refine ⟨⟨framed.shardCount.trans (formed.shards.trans all.length_eq), ?_, framed.frontendCount ▸ formed.frontend⟩, ?_⟩
  · rw [frontends, framed.frontendCount]
    exact formed.frontends
  · rw [shards] at all
    obtain ⟨first', rest', head, tail, shards'⟩ := List.forall₂_cons_left_iff.mp all
    rw [auto]
    refine ⟨first', rest', shards', head _ _ coordinator, ?_⟩
    exact forall_mem_right ((List.forall₂_and_left _ _).mpr ⟨others, tail⟩) fun _ _ both => both.2 _ _ both.1

/-- A read is one path access to every shard. -/
theorem readShards_idle {target : Nat} {key : UInt64} {payload : Vector UInt8 K} {draws : Nat → Nat} {s : Nat}
    {trees trees' : List (ObliviousHistogram Z K A S V)} {result v : V}
    (run : readShards target key payload draws s trees result = .ok (v, trees')) :
    List.Forall₂ (fun tree tree' => (∀ c auto emits, Idle auto emits c tree → Idle auto emits c tree') ∧
      (∃ leaf, Moved tree [.access leaf] tree') ∧ signalsOf tree'.trace = signalsOf tree.trace) trees trees' := by
  induction trees generalizing s trees' result v with
  | nil =>
    obtain ⟨-, rfl⟩ := Prod.mk.inj (Except.ok.inj run)
    exact .nil
  | cons tree trees ih =>
    rw [readShards] at run
    split at run
    · obtain ⟨⟨value, next⟩, read, run⟩ := bind_ok run
      obtain ⟨⟨last, others⟩, tail, run⟩ := bind_ok run
      simp only [pure, Except.pure, Except.ok.injEq, Prod.mk.injEq] at run
      obtain ⟨-, rfl⟩ := run
      have moved := (readPreparedTotal_kept read).toMoved
      obtain ⟨role, pending, signals⟩ := (readPreparedTotal_still read).idle
      refine .cons ⟨fun c auto emits idle => ?_, ⟨_, moved⟩, signals⟩ (ih tail)
      exact ⟨(readPreparedTotal_step idle.inv read).1, moved.counters.trans idle.counters, role.trans idle.role,
        pending.trans idle.idle⟩
    · obtain ⟨next, read, run⟩ := bind_ok run
      obtain ⟨⟨last, others⟩, tail, run⟩ := bind_ok run
      simp only [pure, Except.pure, Except.ok.injEq, Prod.mk.injEq] at run
      obtain ⟨-, rfl⟩ := run
      have moved := (readDummy_kept read).toMoved
      obtain ⟨role, pending, signals⟩ := (readDummy_still read).idle
      refine .cons ⟨fun c auto emits idle => ?_, ⟨_, moved⟩, signals⟩ (ih tail)
      exact ⟨(readDummy_reshuffle read).inv idle.inv, moved.counters.trans idle.counters, role.trans idle.role,
        pending.trans idle.idle⟩

theorem grow_coordinated (coordinated : Coordinated c h) (run : h.grow math = .ok h') :
    Coordinated c.grow h' ∧ Framed h h' := by
  obtain ⟨shards', grown, run⟩ := bind_ok run
  simp only [pure, Except.pure, Except.ok.injEq] at run
  subst run
  refine ⟨coordinated.of_shards rfl ⟨rfl, rfl, rfl, rfl, rfl⟩ rfl ?_, ⟨rfl, rfl, rfl, rfl, rfl⟩⟩
  refine (forEachShard_ok grown).imp fun tree tree' done auto emits idle => ?_
  obtain ⟨role, pending, -⟩ := grow_idle done
  have still := grow_grown done
  refine ⟨(grow_reshuffle done).inv idle.inv, ?_, role.trans idle.role, pending.trans idle.idle⟩
  rw [← idle.counters]
  simp only [ObliviousHistogram.counters, still.height, still.epoch, still.appendCtr, still.evictCtr, still.sweepEnd]
  rfl

theorem enableDeferredAutoResize_idle {cfg : AutoResizeConfig} (idle : Idle auto emits c tree) {coordinator : Bool}
    (run : tree.enableDeferredAutoResize math cfg coordinator = .ok tree') : Idle true coordinator c tree' := by
  have moved := configureAutoResize_moved run
  have still := (configureAutoResize_reshuffle run).inv idle.inv
  obtain ⟨sampler, -, -, rfl⟩ := configureAutoResize_spec run
  exact ⟨still, moved.counters.trans idle.counters, rfl, rfl⟩

/-- The shards past the first get no coordinator's role. -/
theorem enableShards_idle {cfg : AutoResizeConfig} {target i : Nat} (past : i ≠ 0)
    {trees trees' : List (ObliviousHistogram Z K A S V)} (run : enableShards math cfg target i trees = .ok trees') :
    List.Forall₂ (fun tree tree' => ∀ c auto emits, Idle auto emits c tree → Idle true false c tree') trees trees' := by
  induction trees generalizing i trees' with
  | nil =>
    obtain rfl := Except.ok.inj run
    exact .nil
  | cons tree trees ih =>
    obtain ⟨first, enabled, run⟩ := bind_ok run
    obtain ⟨others, tail, rfl⟩ := map_ok run
    rw [decide_eq_false past] at enabled
    exact .cons (fun c auto emits idle => enableDeferredAutoResize_idle idle enabled) (ih (Nat.succ_ne_zero i) tail)

theorem enableAutoResize_coordinated {slack : Nat → Nat → Nat → Nat} {cfg : AutoResizeConfig} (coordinated : Coordinated c h)
    (run : h.enableAutoResize math slack cfg = .ok h') : Coordinated c h' ∧ Framed h h' := by
  have formed := coordinated.formed
  obtain ⟨first, rest, shards, coordinator, others⟩ := coordinated.shards
  obtain ⟨trees, enabled, run⟩ := bind_ok run
  simp only [pure, Except.pure, Except.ok.injEq] at run
  subst run
  rw [shards] at enabled
  obtain ⟨first', head, enabled⟩ := bind_ok enabled
  obtain ⟨rest', tail, rfl⟩ := map_ok enabled
  have quiet := enableShards_idle Nat.one_ne_zero tail
  refine ⟨⟨⟨?_, formed.frontends, formed.frontend⟩, first', rest', rfl, enableDeferredAutoResize_idle coordinator head, ?_⟩,
    ⟨rfl, rfl, rfl, rfl, rfl⟩⟩
  · change h.router.shardCount = _
    rw [formed.shards, shards, List.length_cons, List.length_cons, quiet.length_eq]
  · exact forall_mem_right ((List.forall₂_and_left _ _).mpr ⟨others, quiet⟩) fun _ _ both => both.2 _ _ _ both.1

/-- The flush of an append sees the batch with the new update. -/
theorem append_cases {key : List UInt8} {val : V} (run : h.append math key val = .ok h') : ∃ pending,
    h' = { h with router := { h.router with pending } } ∨
      ({ h with router := { h.router with pending } } : ShardedObliviousHistogram Z K A S V).flush math = .ok h' := by
  rw [append] at run
  simp only at run
  split at run
  · exact ⟨_, .inr run⟩
  · exact ⟨_, .inl (Except.ok.inj run).symm⟩

omit [Add V] [Inhabited V] in
theorem Coordinated.pending (coordinated : Coordinated c h) (pending : List (OramBlock K V)) :
    Coordinated c ({ h with router := { h.router with pending } } : ShardedObliviousHistogram Z K A S V) :=
  ⟨⟨coordinated.formed.shards, coordinated.formed.frontends, coordinated.formed.frontend⟩, coordinated.shards⟩

omit [Add V] in
theorem newTrees_idle {cap : Nat} {prfs : List Aes128} {trees : List (ObliviousHistogram Z K A S V)}
    (run : newTrees cap prfs = .ok trees) : trees.length = prfs.length ∧
      ∀ tree ∈ trees, ∃ height, treeHeightForCapacity cap Z = .ok height ∧
        (∀ emits, Idle false emits ⟨height, 0, 0, 0, 0⟩ tree) ∧ tree.trace = [] := by
  induction prfs generalizing trees with
  | nil =>
    obtain rfl := Except.ok.inj run
    exact ⟨rfl, fun _ h => absurd h List.not_mem_nil⟩
  | cons prf prfs ih =>
    obtain ⟨first, start, run⟩ := bind_ok run
    obtain ⟨others, tail, rfl⟩ := map_ok run
    obtain ⟨length, all⟩ := ih tail
    refine ⟨congrArg Nat.succ length, List.forall_mem_cons.mpr ⟨?_, all⟩⟩
    have inv : first.Inv fun _ => True := (new_spec start).1
    obtain ⟨height, hheight, start⟩ := bind_ok start
    simp only [pure, Except.pure, Except.ok.injEq] at start
    subst start
    exact ⟨height, hheight, fun emits => ⟨inv, rfl, rfl, rfl⟩, rfl⟩

omit [Add V] in
theorem newWithFrontends_ok {blockSize total batchSize quota frontends : Nat} {prfs : List Aes128} {prf : Aes128}
    (start : newWithFrontends blockSize prfs total batchSize quota frontends prf = .ok h) :
    prfs.length ≠ 0 ∧ ∃ trees, newTrees (total / prfs.length) prfs = .ok trees ∧ h = {
      router := .newWithFrontends trees batchSize quota frontends prf
      epoch := 0
      capacity := total
      sizeInBytes := (trees.map (ObliviousHistogram.sizeInBytes blockSize)).sum
      autoResize := false } := by
  rw [newWithFrontends] at start
  simp only at start
  split at start
  · cases start
  rename_i some
  obtain ⟨trees, created, start⟩ := bind_ok start
  simp only [pure, Except.pure, Except.ok.injEq] at start
  exact ⟨some, trees, created, start.symm⟩

omit [Add V] in
/-- New shards are coordinated. -/
theorem newWithFrontends_coordinated {blockSize total batchSize quota frontends : Nat} {prfs : List Aes128} {prf : Aes128}
    (start : newWithFrontends blockSize prfs total batchSize quota frontends prf = .ok h) : ∃ height,
    treeHeightForCapacity (total / prfs.length) Z = .ok height ∧ Coordinated ⟨height, 0, 0, 0, 0⟩ h ∧
      h.router.shards.length = prfs.length ∧ h.epoch = 0 ∧ h.capacity = total ∧
      h.sizeInBytes = (h.router.shards.map (ObliviousHistogram.sizeInBytes blockSize)).sum ∧
      (∀ tree ∈ h.router.shards, tree.trace = []) ∧ h.router.frontendCount = max frontends 1 ∧
      h.router.batchCapacity = batchSize ∧ h.router.perShardQuota = quota ∧ h.router.pending = [] ∧ h.router.prf = prf ∧
      h.autoResize = false := by
  obtain ⟨some, trees, created, rfl⟩ := newWithFrontends_ok start
  obtain ⟨length, all⟩ := newTrees_idle created
  cases trees with
  | nil => exact absurd length.symm some
  | cons first rest =>
    obtain ⟨height, hheight, idle, quiet⟩ := all first (.head _)
    have same : ∀ tree ∈ rest, Idle false false ⟨height, 0, 0, 0, 0⟩ tree := by
      intro tree htree
      obtain ⟨height', hheight', idle, -⟩ := all tree (.tail _ htree)
      obtain rfl := Except.ok.inj (hheight.symm.trans hheight')
      exact idle false
    refine ⟨height, hheight, ⟨ShardedBatchRouter.newWithFrontends_formed _ _ _ _ _, first, rest, rfl, idle true, same⟩,
      length, rfl, rfl, rfl, fun tree htree => ?_, rfl, rfl, rfl, rfl, rfl, rfl⟩
    obtain ⟨-, -, -, quiet⟩ := all tree htree
    exact quiet

end Steps
end ShardedObliviousHistogram
end Roga
