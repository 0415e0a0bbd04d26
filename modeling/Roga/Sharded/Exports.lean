import Roga.Histogram.Partitioned
import Roga.Sharded.Totals

/-! The exports of the sharded histogram: after the flush every live key is in the output
of one shard, once and with its total. -/
namespace Roga
open Ct Reals ObliviousStash ObliviousHistogram
variable {Z K A S : Nat} {V : Type} {math : ResizeMath} [AddCommSemigroup V] [Inhabited V]

/-- Each live key once with its total, and nothing else. -/
def ExactTotals (keys : List UInt8 → Prop) (appended : List UInt8 → List V) (pairs : List (Vector UInt8 K × V)) : Prop :=
  (pairs.map Prod.fst).Nodup ∧
    ∀ p v, (p, v) ∈ pairs ↔ ∃ k, keys k ∧ copyPrefix K k = p ∧ appended k ≠ [] ∧ v = total (appended k)

omit [AddCommSemigroup V] [Inhabited V] in
/-- No key is in two of the outputs. -/
def Apart (outputs : List (List (Vector UInt8 K × V))) : Prop := (outputs.map (List.map Prod.fst)).Pairwise List.Disjoint

theorem sumOf_eq_coe {vs : List V} {v : V} : sumOf vs = (v : WithZero V) ↔ vs ≠ [] ∧ v = total vs := by
  cases vs with
  | nil => exact ⟨fun zero => absurd zero.symm WithZero.coe_ne_zero, fun both => absurd rfl both.1⟩
  | cons w ws =>
    rw [sumOf_cons, WithZero.coe_inj]
    exact ⟨fun same => ⟨List.cons_ne_nil w ws, same.symm⟩, fun both => both.2.symm⟩

omit [Inhabited V] in
theorem payloadSum_contents {h : ObliviousHistogram Z K A S V} (shape : h.Shape) (p : Vector UInt8 K) :
    payloadSum p h.contents = storedSum h p := by
  have contents : reals h.contents = h.contents := by
    rw [← ObliviousHistogram.reals_slots shape, reals_eq_self fun b hb => (mem_reals.mp hb).2]
  rw [payloadSum, contents, storedSum]

section Shards
variable {prf : Aes128} {keys : List UInt8 → Prop} {n : Nat}

omit [AddCommSemigroup V] [Inhabited V] in
theorem tagsAgree_of_owned {s : Nat} {tree : ObliviousHistogram Z K A S V} (sep : Separated prf K keys)
    (inv : tree.Inv (owned prf keys n s)) : TagsAgree tree.contents := by
  intro a ha b hb same
  obtain ⟨⟨k, hk, ka⟩, -⟩ := inv.inserted a ha
  obtain ⟨⟨k', hk', kb⟩, -⟩ := inv.inserted b hb
  have pay : copyPrefix K k = copyPrefix K k' := (congrArg Prod.snd ka).symm.trans (same.trans (congrArg Prod.snd kb))
  rw [sep.prefix_inj k k' hk hk' pay] at ka
  exact congrArg Prod.fst (ka.trans kb.symm)

omit [Inhabited V] in
/-- A payload that a shard exports is that of a key of the shard. -/
theorem key_of_stored {s : Nat} {tree : ObliviousHistogram Z K A S V} (inv : tree.Inv (owned prf keys n s))
    {p : Vector UInt8 K} (stored : storedSum tree p ≠ 0) :
    ∃ k, keys k ∧ copyPrefix K k = p ∧ shardIndexForTag (prfTag prf k) n = s := by
  obtain ⟨b, hb, rfl⟩ : ∃ b ∈ tree.contents, b.payload = p := by
    by_contra none
    refine stored ?_
    rw [← payloadSum_contents inv.shape]
    exact payloadSum_eq_zero fun b hb _ same => none ⟨b, hb, same⟩
  obtain ⟨⟨k, hk, same⟩, here⟩ := inv.inserted b hb
  have here : shardIndexForTag b.tag n = s := here
  refine ⟨k, hk, (congrArg Prod.snd same).symm, ?_⟩
  rw [← show b.tag = prfTag prf k from congrArg Prod.fst same]
  exact here

omit [Inhabited V] in
/-- Exact outputs of all shards are together exact. -/
theorem Owned.exact (sep : Separated prf K keys) {s : Nat} {trees : List (ObliviousHistogram Z K A S V)}
    {outputs : List (List (Vector UInt8 K × V))} (held : Owned prf keys n s trees)
    (each : List.Forall₂ ExactFor trees outputs) : (outputs.flatten.map Prod.fst).Nodup ∧
      (∀ p v, (p, v) ∈ outputs.flatten ↔ payloadSum p (shardBlocks trees) = (v : WithZero V)) ∧
      ∀ p ∈ outputs.flatten.map Prod.fst, ∃ k, keys k ∧ copyPrefix K k = p ∧ s ≤ shardIndexForTag (prfTag prf k) n := by
  induction each generalizing s with
  | nil =>
    refine ⟨List.nodup_nil, fun p v => ⟨fun mem => absurd mem List.not_mem_nil, fun zero => ?_⟩,
      fun p mem => absurd mem List.not_mem_nil⟩
    exact absurd zero.symm WithZero.coe_ne_zero
  | @cons tree output trees outputs first _ ih =>
    obtain ⟨inv, rest⟩ := held
    obtain ⟨nodup, exact, later⟩ := ih rest
    obtain ⟨nodup', exact'⟩ := first
    have here : ∀ p ∈ output.map Prod.fst, ∃ k, keys k ∧ copyPrefix K k = p ∧ shardIndexForTag (prfTag prf k) n = s := by
      intro p mem
      obtain ⟨⟨q, v⟩, hv, rfl⟩ := List.mem_map.mp mem
      refine key_of_stored inv fun zero => ?_
      rw [exact', zero] at hv
      exact absurd hv.symm WithZero.coe_ne_zero
    refine ⟨?_, fun p v => ?_, fun p mem => ?_⟩
    · rw [List.flatten_cons, List.map_append]
      refine List.Nodup.append nodup' nodup fun p mem mem' => ?_
      obtain ⟨k, hk, same, index⟩ := here p mem
      obtain ⟨k', hk', same', index'⟩ := later p mem'
      rw [sep.prefix_inj k k' hk hk' (same.trans same'.symm)] at index
      omega
    · rw [List.flatten_cons, List.mem_append, exact', exact, payloadSum_shards_cons, payloadSum_contents inv.shape]
      by_cases stored : storedSum tree p = 0
      · rw [stored, zero_add]
        exact ⟨fun either => either.resolve_left fun zero => absurd zero.symm WithZero.coe_ne_zero, .inr⟩
      · obtain ⟨k, hk, rfl, index⟩ := key_of_stored inv stored
        have absent := ShardedObliviousHistogram.Owned.absent_past sep rest hk (index ▸ Nat.lt_succ_self _)
        rw [absent, add_zero]
        exact ⟨fun either => either.resolve_right fun zero => absurd zero.symm WithZero.coe_ne_zero, .inl⟩
    · rw [List.flatten_cons, List.map_append] at mem
      rcases List.mem_append.mp mem with mem | mem
      · obtain ⟨k, hk, same, index⟩ := here p mem
        exact ⟨k, hk, same, index.ge⟩
      · obtain ⟨k, hk, same, index⟩ := later p mem
        exact ⟨k, hk, same, (Nat.le_succ s).trans index⟩

end Shards
section Exports
variable {prf : Aes128} {keys : List UInt8 → Prop} {n : Nat} {appended : List UInt8 → List V}
  {h g : ShardedObliviousHistogram Z K A S V}

/-- Exact outputs of the shards export the totals that the flushed histogram holds. -/
theorem ShardedObliviousHistogram.Holds.exactTotals (sep : Separated prf K keys)
    (holds : ShardedObliviousHistogram.Holds prf keys n appended g) (flushed : g.router.pending = [])
    {outputs : List (List (Vector UInt8 K × V))} (each : List.Forall₂ ExactFor g.router.shards outputs) :
    ExactTotals keys appended outputs.flatten ∧ Apart outputs := by
  obtain ⟨nodup, exact, known⟩ := holds.shards.exact sep each
  have sums : ∀ k, keys k → payloadSum (copyPrefix K k) (shardBlocks g.router.shards) = sumOf (appended k) := by
    intro k hk
    rw [← holds.values k hk, flushed]
    exact (add_zero _).symm
  refine ⟨⟨nodup, fun p v => ?_⟩, ?_⟩
  · constructor
    · intro mem
      obtain ⟨k, hk, rfl, -⟩ := known p (List.mem_map_of_mem mem)
      rw [exact, sums k hk] at mem
      exact ⟨k, hk, rfl, sumOf_eq_coe.mp mem⟩
    · rintro ⟨k, hk, rfl, live, rfl⟩
      rw [exact, sums k hk]
      exact sumOf_eq_coe.mpr ⟨live, rfl⟩
  · rw [List.map_flatten, List.nodup_flatten] at nodup
    exact nodup.2

omit [AddCommSemigroup V] [Inhabited V] in
theorem entries_flatMap {ι : Type} (is : List ι) (f : ι → List (OramBlock K V)) :
    entries (is.flatMap f) = (is.map fun i => entries (f i)).flatten := by
  rw [entries, reals_flatMap, List.map_flatMap, List.flatMap_def]
  rfl

omit [AddCommSemigroup V] in
/-- The outputs that a readout by subtrees emits when no shard reports an overflow. -/
theorem emitShards_ok {suggestedPerShardQuota : Nat → Nat → Nat → Nat} {localHeight securityBits : Nat} [Add V]
    {trees : List (ObliviousHistogram Z K A S V)} {outputs : List (List (OramBlock K V))}
    (run : ShardedObliviousHistogram.emitShards suggestedPerShardQuota localHeight securityBits trees = (.ok (), outputs)) :
    List.Forall₂ (fun tree output => tree.readoutSubtreePartitioned suggestedPerShardQuota localHeight securityBits =
      .ok output) trees outputs := by
  induction trees generalizing outputs with
  | nil =>
    obtain ⟨-, rfl⟩ := Prod.mk.inj run
    exact .nil
  | cons tree trees ih =>
    rw [ShardedObliviousHistogram.emitShards] at run
    split at run
    · cases run
    · rename_i output emitted
      rcases rest : ShardedObliviousHistogram.emitShards suggestedPerShardQuota localHeight securityBits trees with
        ⟨outcome, others⟩
      rw [rest] at run
      obtain ⟨rfl, rfl⟩ := Prod.mk.inj run
      exact .cons emitted (ih rest)

/-- The trees below the cut and the trees that are read whole export the same records. -/
theorem readoutSubtreePartitioned_exactFor {z : Nat} (hz : Z = 2 ^ z) {s : Nat} {tree : ObliviousHistogram Z K A S V}
    (sep : Separated prf K keys) (inv : tree.Inv (owned prf keys n s)) {suggestedPerShardQuota : Nat → Nat → Nat → Nat}
    {localHeight securityBits : Nat} {output : List (OramBlock K V)}
    (run : tree.readoutSubtreePartitioned suggestedPerShardQuota localHeight securityBits = .ok output) :
    ExactFor tree (entries output) := by
  have tags := tagsAgree_of_owned sep inv
  obtain ⟨whole, below⟩ := readoutSubtreePartitioned_exact hz inv.shape inv.onPath tags suggestedPerShardQuota localHeight
    securityBits
  rcases Nat.lt_or_ge localHeight tree.height with low | high
  · exact ((below low).2 output run).2.1
  · have same := Except.ok.inj ((whole high).symm.trans run)
    rw [← same]
    exact (exports_exact hz inv.shape inv.onPath tags).2.1

omit [AddCommSemigroup V] [Inhabited V] in
/-- What holds of every shard and its output. -/
theorem Owned.forall₂ {s : Nat} {trees : List (ObliviousHistogram Z K A S V)} (held : Owned prf keys n s trees) {T T' : Type}
    {outputs : List T} {R : ObliviousHistogram Z K A S V → T → Prop} {R' : ObliviousHistogram Z K A S V → T' → Prop} {f : T → T'}
    (run : List.Forall₂ R trees outputs)
    (each : ∀ s tree output, tree.Inv (owned prf keys n s) → R tree output → R' tree (f output)) :
    List.Forall₂ R' trees (outputs.map f) := by
  induction run generalizing s with
  | nil => exact .nil
  | cons first _ ih => exact .cons (each s _ _ held.1 first) (ih held.2)

omit [AddCommSemigroup V] [Inhabited V] in
theorem forall₂_map {T : Type} (f : ObliviousHistogram Z K A S V → T) (trees : List (ObliviousHistogram Z K A S V)) :
    List.Forall₂ (fun tree output => output = f tree) trees (trees.map f) :=
  List.forall₂_map_right_iff.mpr (List.forall₂_same.mpr fun _ _ => rfl)

omit [AddCommSemigroup V] [Inhabited V] in
theorem length_flatMap_shards {f : ObliviousHistogram Z K A S V → List (OramBlock K V)} {s : Nat}
    {trees : List (ObliviousHistogram Z K A S V)} (held : Owned prf keys n s trees)
    (each : ∀ s tree, tree.Inv (owned prf keys n s) → (f tree).length = 2 ^ (tree.height + 1) * Z + S) :
    (trees.flatMap f).length = (trees.map fun tree => 2 ^ (tree.height + 1) * Z + S).sum := by
  induction trees generalizing s with
  | nil => rfl
  | cons tree trees ih =>
    rw [List.flatMap_cons, List.length_append, each s tree held.1, ih held.2, List.map_cons, List.sum_cons]

omit [AddCommSemigroup V] [Inhabited V] in
theorem entries_compacted {blocks rest : List (OramBlock K V)} (dummies : ∀ b ∈ rest, b.isReal = false) :
    entries (reals blocks ++ rest) = entries blocks := by
  rw [entries, entries, reals_append, reals_eq_nil.mpr dummies, List.append_nil,
    reals_eq_self fun b hb => (mem_reals.mp hb).2]

theorem treeHeightForCapacity_pow {cap z height : Nat} (run : treeHeightForCapacity cap z = .ok height) :
    z = 2 ^ Nat.log2 z := by
  rw [treeHeightForCapacity] at run
  split at run
  · cases run
  · rename_i power
    exact Classical.not_not.mp power

namespace ShardedObliviousHistogram

theorem Holds.exact_of (sep : Separated prf K keys) (holds : Holds prf keys n appended g) (empty : g.router.pending = [])
    {f : ObliviousHistogram Z K A S V → List (Vector UInt8 K × V)}
    (each : ∀ s tree, tree.Inv (owned prf keys n s) → ExactFor tree (f tree)) :
    ExactTotals keys appended (g.router.shards.map f).flatten ∧ Apart (g.router.shards.map f) := by
  have all := @Owned.forall₂ Z K A S V prf keys n 0 g.router.shards holds.shards _ _ _ _ ExactFor id
    (forall₂_map f g.router.shards) fun s tree out inv same => same ▸ each s tree inv
  rw [List.map_id] at all
  exact holds.exactTotals sep empty all

variable {z : Nat} (hz : Z = 2 ^ z) (sep : Separated prf K keys) (holds : Holds prf keys n appended g)
  (empty : g.router.pending = []) (flushed : h.flush math = .ok g)
include hz sep holds empty flushed

theorem Holds.readout_exact : ∃ out, h.readout math = .ok (out, g) ∧ ExactTotals keys appended (entries out) ∧
    Apart (g.router.shards.map fun tree => entries tree.readout) ∧
    out.length = (g.router.shards.map fun tree => 2 ^ (tree.height + 1) * Z + S).sum ∧
    ∃ front rest, out = front ++ rest ∧ (∀ b ∈ front, b.isReal = true) ∧ ∀ b ∈ rest, b.isReal = false := by
  have exact := holds.exact_of sep empty (f := fun tree => entries tree.readout) fun s tree inv =>
    (exports_exact hz inv.shape inv.onPath (tagsAgree_of_owned sep inv)).1
  obtain ⟨rest, compacted, dummies⟩ := compactPayload_reals (g.router.shards.flatMap ObliviousHistogram.readout)
  refine ⟨_, by rw [readout, flushed]; rfl, ?_, exact.2, ?_, _, rest, compacted, fun b hb => (mem_reals.mp hb).2, dummies⟩
  · rw [compacted, entries_compacted dummies, entries_flatMap]
    exact exact.1
  · rw [compactPayload_length]
    refine length_flatMap_shards holds.shards fun s tree inv => ?_
    obtain ⟨-, -, -, -, length, -⟩ := exports_exact hz inv.shape inv.onPath (tagsAgree_of_owned sep inv)
    exact length

theorem Holds.readoutTreeAware_exact (lockstep : Lockstep g) : ∃ out, h.readoutTreeAware math = .ok (out, g) ∧
    ExactTotals keys appended (entries out) ∧ Apart (g.router.shards.map fun tree => entries tree.readoutTreeAware) ∧
    out.length = (g.router.shards.map fun tree => 2 ^ (tree.height + 1) * Z + S).sum := by
  have exact := holds.exact_of sep empty (f := fun tree => entries tree.readoutTreeAware) fun s tree inv =>
    (exports_exact hz inv.shape inv.onPath (tagsAgree_of_owned sep inv)).2.1
  have equal : (g.router.shards.all fun shard =>
      shard.readoutLen == (g.router.shards.head?.map ObliviousHistogram.readoutLen).getD 0) = true := by
    rw [List.all_eq_true]
    intro tree htree
    cases shards : g.router.shards with
    | nil =>
      rw [shards] at htree
      exact absurd htree List.not_mem_nil
    | cons first rest =>
      have member : first ∈ g.router.shards := by
        rw [shards]
        exact .head _
      obtain ⟨-, -, -, -, -, same⟩ := lockstep.equal tree htree first member
      exact beq_iff_eq.mpr same
  refine ⟨g.router.shards.flatMap ObliviousHistogram.readoutTreeAware, ?_, ?_, exact.2, ?_⟩
  · rw [readoutTreeAware, flushed]
    exact if_pos equal
  · rw [entries_flatMap]
    exact exact.1
  · refine length_flatMap_shards holds.shards fun s tree inv => ?_
    obtain ⟨-, -, -, -, -, length, -⟩ := exports_exact hz inv.shape inv.onPath (tagsAgree_of_owned sep inv)
    exact length

theorem Holds.exportEntries_exact : ∃ out, h.exportEntries math = .ok (out, g) ∧
    ExactTotals keys appended (out.map Prod.snd) ∧ Apart (g.router.shards.map fun tree => tree.exportEntries.map Prod.snd) := by
  have exact := holds.exact_of sep empty (f := fun tree => tree.exportEntries.map Prod.snd) fun s tree inv =>
    (exports_exact hz inv.shape inv.onPath (tagsAgree_of_owned sep inv)).2.2.2.1
  refine ⟨g.router.shards.flatMap ObliviousHistogram.exportEntries, by rw [exportEntries, flushed]; rfl, ?_, exact.2⟩
  rw [List.map_flatMap, List.flatMap_def]
  exact exact.1

theorem Holds.intoReadoutSubtreePartitioned_exact (suggestedPerShardQuota : Nat → Nat → Nat → Nat)
    (localHeight securityBits : Nat) : ∃ outcome outputs,
    h.intoReadoutSubtreePartitioned math suggestedPerShardQuota localHeight securityBits = .ok (outcome, outputs) ∧
      (outcome = .ok () → outputs.length = g.router.shards.length ∧ ExactTotals keys appended (entries outputs.flatten) ∧
        Apart (outputs.map entries)) := by
  rcases emitted : emitShards suggestedPerShardQuota localHeight securityBits g.router.shards with ⟨outcome, outputs⟩
  refine ⟨outcome, outputs, ?_, fun done => ?_⟩
  · rw [intoReadoutSubtreePartitioned, flushed]
    exact (if_pos empty).trans (congrArg Except.ok emitted)
  · subst done
    have all := emitShards_ok emitted
    obtain ⟨exact, apart⟩ := holds.exactTotals sep empty (holds.shards.forall₂ all fun s tree out inv run =>
      readoutSubtreePartitioned_exactFor hz sep inv run)
    refine ⟨all.length_eq.symm, ?_, apart⟩
    rw [← List.flatMap_id, entries_flatMap]
    exact exact

end ShardedObliviousHistogram
end Exports

/-- After the flush all exports of the sharded histogram hold every live key once with its total, and
no key is in the output of two shards. -/
theorem sharded_exports_exact {slack : Nat → Nat → Nat → Nat} {blockSize totalCapacity batchSize quota frontends : Nat}
    {prfs : List Aes128} {prf : Aes128} {keys : List UInt8 → Prop} (few : prfs.length ≤ 64) (positive : 0 < batchSize)
    (even : frontends ∣ batchSize) (sep : Separated prf K keys) {ops : List (ShardedOp V)}
    (over' : ∀ op ∈ ops, op.Over keys) {outs : List (Option V)} {h g : ShardedObliviousHistogram Z K A S V}
    (run : ShardedObliviousHistogram.runNew math slack blockSize prfs totalCapacity batchSize quota frontends prf ops =
      .ok (outs, h)) (flushed : h.flush math = .ok g) (suggestedPerShardQuota : Nat → Nat → Nat → Nat)
    (localHeight securityBits : Nat) :
    let totals := ShardedOp.totalsAfter (fun _ => []) ops
    let slots := (g.router.shards.map fun tree => 2 ^ (tree.height + 1) * Z + S).sum
    (∃ out, h.readout math = .ok (out, g) ∧ ExactTotals keys totals (entries out) ∧
      Apart (g.router.shards.map fun tree => entries tree.readout) ∧ out.length = slots ∧
      ∃ front rest, out = front ++ rest ∧ (∀ b ∈ front, b.isReal = true) ∧ ∀ b ∈ rest, b.isReal = false) ∧
    (∃ out, h.readoutTreeAware math = .ok (out, g) ∧ ExactTotals keys totals (entries out) ∧
      Apart (g.router.shards.map fun tree => entries tree.readoutTreeAware) ∧ out.length = slots) ∧
    (∃ out, h.exportEntries math = .ok (out, g) ∧ ExactTotals keys totals (out.map Prod.snd) ∧
      Apart (g.router.shards.map fun tree => tree.exportEntries.map Prod.snd)) ∧
    ∃ outcome outputs, h.intoReadoutSubtreePartitioned math suggestedPerShardQuota localHeight securityBits =
      .ok (outcome, outputs) ∧ (outcome = .ok () → outputs.length = g.router.shards.length ∧
        ExactTotals keys totals (entries outputs.flatten) ∧ Apart (outputs.map entries)) := by
  intro totals slots
  obtain ⟨h₀, start, run⟩ := bind_ok run
  obtain ⟨some, initial, room⟩ := ShardedObliviousHistogram.Holds.new positive even start
  obtain ⟨-, before⟩ := initial.run sep some few room over' run
  obtain ⟨held, empty⟩ := before.flush few flushed
  obtain ⟨height, hheight, coordinated, -⟩ := ShardedObliviousHistogram.newWithFrontends_coordinated start
  have hz := treeHeightForCapacity_pow hheight
  obtain ⟨c, reached, -⟩ := ShardedObliviousHistogram.run_induct (P := fun _ _ => True) (fun _ _ _ _ _ _ _ => trivial)
    coordinated trivial run
  obtain ⟨calls, after⟩ := ShardedObliviousHistogram.flush_coordinated reached flushed
  exact ⟨held.readout_exact hz sep empty flushed,
    held.readoutTreeAware_exact hz sep empty flushed after.coordinated.lockstep,
    held.exportEntries_exact hz sep empty flushed,
    held.intoReadoutSubtreePartitioned_exact hz sep empty flushed suggestedPerShardQuota localHeight securityBits⟩

/-- One update is still pending when the histogram is read. -/
theorem sharded_exports_exact_two_keys :
    let ops := [ShardedOp.append [1] 5, .append [2] 7, .append [1] 6]
    ∃ (outs : List (Option Nat)) (h : ShardedObliviousHistogram 1 1 1 4 Nat),
      ShardedObliviousHistogram.runNew .constant (fun _ _ _ => 0) 1 [id, id] 4 2 2 1 id ops = .ok (outs, h) ∧
        ∃ out g, h.readout .constant = .ok (out, g) ∧
          ExactTotals (fun k => k = [1] ∨ k = [2]) (ShardedOp.totalsAfter (fun _ => []) ops) (entries out) := by
  intro ops
  have run : ((ShardedObliviousHistogram.runNew .constant (fun _ _ _ => 0) 1 [id, id] 4 2 2 1 id ops :
    Except Panic (List (Option Nat) × ShardedObliviousHistogram 1 1 1 4 Nat)).toOption.map fun r =>
      (r.2.flush .constant).toBool) = some true := by decide +kernel
  obtain ⟨⟨outs, h⟩, ran, flushed⟩ := Option.map_eq_some_iff.mp run
  obtain ⟨g, flushed⟩ := exists_of_toBool flushed
  have ran := eq_ok_of_toOption ran
  obtain ⟨out, readout, exact, -⟩ := (sharded_exports_exact (by decide) (by decide) (by decide) separated_pair
    (by simp [ops, ShardedOp.Over]) ran flushed (fun _ _ _ => 2) 1 80).1
  exact ⟨outs, h, ran, out, g, readout, exact⟩

end Roga
