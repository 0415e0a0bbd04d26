import Roga.Histogram.OpsProofs
import Roga.Histogram.Run

/-! Results about whole runs of a tree: the representation invariant and the
refinement of the map of totals. -/
namespace Roga
open Ct Reals ObliviousStash ObliviousHistogram
variable {Z K A S : Nat} {V : Type} {math : ResizeMath}

namespace ObliviousHistogram
variable {known : UInt64 × Vector UInt8 K → Prop} {h h' : ObliviousHistogram Z K A S V}

section New
variable [Inhabited V]

theorem treeHeightForCapacity_spec {cap z height : Nat} (run : treeHeightForCapacity cap z = .ok height) :
    0 < z ∧ 0 < height ∧ height ≤ 31 := by
  rw [treeHeightForCapacity] at run
  split at run
  · simp at run
  rename_i pow
  split at run
  · simp at run
  simp only at run
  split at run
  · simp only [Except.ok.injEq] at run
    rename_i bound
    rw [maxTreeHeight] at bound
    refine ⟨?_, by omega, by omega⟩
    have pos := Nat.two_pow_pos z.log2
    omega
  · simp at run

theorem new_spec {cap : Nat} {prf : Aes128} {h : ObliviousHistogram Z K A S V} (run : new cap prf = .ok h) :
    h.Inv known ∧ h.contents = [] ∧ h.prf = prf ∧ h.trace = [] ∧ h.autoResize = none := by
  obtain ⟨height, hheight, run⟩ := bind_ok run
  obtain ⟨zpos, hpos, hle⟩ := treeHeightForCapacity_spec hheight
  simp only [pure, Except.pure, Except.ok.injEq] at run
  have memory : h.physicalMemory = List.replicate (2 ^ (height + 1) * Z) OramBlock.dummy := by rw [← run]
  have stash : h.stash = ObliviousStash.new (Z * (height + 1)) := by rw [← run]
  have hh : h.height = height := by rw [← run]
  have empty : ∀ n, h.bucket n = [] := fun n => by
    rw [ObliviousHistogram.bucket, memory]
    refine reals_eq_nil.mpr fun b hb => ?_
    rw [List.eq_of_mem_replicate (List.mem_of_mem_drop (List.mem_of_mem_take hb))]
    rfl
  have nothing : h.contents = [] := by
    rw [ObliviousHistogram.contents, ObliviousHistogram.overflow, stash, overflowSlots, ObliviousStash.new,
      List.drop_replicate, reals_replicate_dummy, List.append_nil]
    exact List.flatMap_eq_nil_iff.mpr fun n _ => empty n
  refine ⟨⟨⟨zpos, hh ▸ hpos, hh ▸ hle, ?_, ?_, ?_, fun b hb => ?_, fun b hb => ?_⟩, fun n _ _ b hb => ?_,
    fun b hb => ?_, fun _ n => ?_⟩, nothing, by rw [← run], by rw [← run], by rw [← run]⟩
  · rw [memory, List.length_replicate, hh]
  · rw [stash, hh]
    rfl
  · rw [stash, ObliviousStash.new, List.length_replicate]
  · rw [memory] at hb
    rw [List.eq_of_mem_replicate (List.mem_of_mem_drop (List.mem_of_mem_take hb))]
    rfl
  · rw [stash] at hb
    rw [List.eq_of_mem_replicate (List.mem_of_mem_take hb)]
    rfl
  · exact absurd (empty n ▸ hb) List.not_mem_nil
  · exact absurd (nothing ▸ hb) List.not_mem_nil
  · rw [empty]
    exact List.nodup_nil

end New

section Steps
variable [Add V] [Inhabited V]

theorem map_ok {α β : Type} {x : Except Panic α} {f : α → β} {b : β}
    (run : (do return f (← x)) = Except.ok b) : ∃ a, x = .ok a ∧ b = f a := by
  obtain ⟨a, ha, run⟩ := bind_ok run
  simp only [pure, Except.pure, Except.ok.injEq] at run
  exact ⟨a, ha, run.symm⟩

theorem configureAutoResize_reshuffle {cfg : AutoResizeConfig} {deferChecks emits : Bool}
    (run : h.configureAutoResize math cfg deferChecks emits = .ok h') : Reshuffle h h' := by
  obtain ⟨sampler, -, -, rfl⟩ := configureAutoResize_spec run
  exact .fields rfl rfl rfl rfl (List.suffix_refl _)

theorem takeDeferredAutoResizeSignal_reshuffle {signal : Option Nat}
    (run : h.takeDeferredAutoResizeSignal = .ok (signal, h')) : Reshuffle h h' := by
  obtain ⟨-, -, -, -, -, rfl⟩ := takeDeferredAutoResizeSignal_spec run
  exact .fields rfl rfl rfl rfl (List.suffix_refl _)

theorem handleDeferredResize_reshuffle (run : h.handleDeferredResize math = .ok h') : Reshuffle h h' := by
  obtain ⟨⟨signal, g⟩, taken, run⟩ := bind_ok run
  refine .trans (takeDeferredAutoResizeSignal_reshuffle taken) ?_
  cases signal with
  | some target => exact applyDeferredAutoResizeGrow_reshuffle run
  | none =>
    simp only [pure, Except.pure, Except.ok.injEq] at run
    exact run ▸ .refl g

/-- The operations that only move blocks. -/
theorem step_reshuffle {op : TreeOp K V} {out : Option V} (run : h.step math op = .ok (out, h'))
    (quiet : ∀ key val, op ≠ .append key val) (quiet' : ∀ updates, op ≠ .appendBatch updates)
    (quiet'' : ∀ key, op ≠ .readTotal key) : Reshuffle h h' ∧ out = none := by
  cases op with
  | append key val => exact absurd rfl (quiet key val)
  | appendBatch updates => exact absurd rfl (quiet' updates)
  | readTotal key => exact absurd rfl (quiet'' key)
  | readDummy draw =>
    obtain ⟨g, hg, same⟩ := map_ok run
    obtain ⟨rfl, rfl⟩ := Prod.mk.inj same
    exact ⟨readDummy_reshuffle hg, rfl⟩
  | flush =>
    simp only [step, Except.ok.injEq, Prod.mk.injEq] at run
    exact ⟨run.2 ▸ .refl h, run.1.symm⟩
  | grow =>
    obtain ⟨g, hg, same⟩ := map_ok run
    obtain ⟨rfl, rfl⟩ := Prod.mk.inj same
    exact ⟨grow_reshuffle hg, rfl⟩
  | enableAutoResize cfg =>
    obtain ⟨g, hg, same⟩ := map_ok run
    obtain ⟨rfl, rfl⟩ := Prod.mk.inj same
    exact ⟨configureAutoResize_reshuffle hg, rfl⟩
  | enableDeferredAutoResize cfg emits =>
    obtain ⟨g, hg, same⟩ := map_ok run
    obtain ⟨rfl, rfl⟩ := Prod.mk.inj same
    exact ⟨configureAutoResize_reshuffle hg, rfl⟩
  | takeDeferredSignal =>
    obtain ⟨⟨signal, g⟩, hg, run⟩ := bind_ok run
    simp only [pure, Except.pure, Except.ok.injEq, Prod.mk.injEq] at run
    obtain ⟨rfl, rfl⟩ := run
    exact ⟨takeDeferredAutoResizeSignal_reshuffle hg, rfl⟩
  | applyDeferredGrow target =>
    obtain ⟨g, hg, same⟩ := map_ok run
    obtain ⟨rfl, rfl⟩ := Prod.mk.inj same
    exact ⟨applyDeferredAutoResizeGrow_reshuffle hg, rfl⟩
  | handleDeferredResize =>
    obtain ⟨g, hg, same⟩ := map_ok run
    obtain ⟨rfl, rfl⟩ := Prod.mk.inj same
    exact ⟨handleDeferredResize_reshuffle hg, rfl⟩

/-- Every operation keeps the invariant for the identities it inserts. -/
theorem step_inv {op : TreeOp K V} {out : Option V} (inv : h.Inv known)
    (knows : ∀ id ∈ op.inserts h.prf, known id) (run : h.step math op = .ok (out, h')) :
    h'.Inv known ∧ h'.prf = h.prf ∧ h.trace <:+ h'.trace := by
  by_cases quiet : (∀ key val, op ≠ .append key val) ∧ (∀ updates, op ≠ .appendBatch updates) ∧
      ∀ key, op ≠ .readTotal key
  · have moved := (step_reshuffle run quiet.1 quiet.2.1 quiet.2.2).1
    exact ⟨moved.inv inv, moved.prf, moved.trace⟩
  cases op with
  | append key val =>
    obtain ⟨g, hg, same⟩ := map_ok run
    obtain ⟨-, rfl⟩ := Prod.mk.inj same
    obtain ⟨m, minv, prf, trace, -, moved⟩ := addPreparedInner_step inv (fun real => knows _ (by
      simp [TreeOp.inserts, real])) hg
    exact ⟨moved.inv minv, moved.prf.trans prf, trace.trans moved.trace⟩
  | appendBatch updates =>
    obtain ⟨g, hg, same⟩ := map_ok run
    obtain ⟨-, rfl⟩ := Prod.mk.inj same
    refine appendPreparedMaskedBatch_inv inv (fun u hu on real => knows _ ?_) hg
    refine List.mem_filter.mpr ⟨List.mem_map.mpr ⟨u, List.mem_filter.mpr ⟨hu, ?_⟩, rfl⟩, ?_⟩
    · simpa using on
    · simpa using real
  | readTotal key =>
    obtain ⟨⟨v, g⟩, hg, run⟩ := bind_ok run
    simp only [pure, Except.pure, Except.ok.injEq, Prod.mk.injEq] at run
    obtain ⟨-, rfl⟩ := run
    obtain ⟨inv', prf', -⟩ := readPreparedTotal_step inv hg
    exact ⟨inv', prf', readPreparedTotal_trace hg⟩
  | _ => exact absurd ⟨fun _ _ => by simp, fun _ => by simp, fun _ => by simp⟩ quiet

theorem run_cons {op : TreeOp K V} {ops : List (TreeOp K V)} {outs : List (Option V)}
    (hrun : h.run math (op :: ops) = .ok (outs, h')) : ∃ out outs' g,
      h.step math op = .ok (out, g) ∧ g.run math ops = .ok (outs', h') ∧ outs = out :: outs' := by
  obtain ⟨⟨out, g⟩, hstep, hrun⟩ := bind_ok hrun
  obtain ⟨⟨outs', g'⟩, htail, hrun⟩ := bind_ok hrun
  simp only [pure, Except.pure, Except.ok.injEq, Prod.mk.injEq] at hrun
  obtain ⟨rfl, rfl⟩ := hrun
  exact ⟨out, outs', g, hstep, htail, rfl⟩

theorem run_inv {ops : List (TreeOp K V)} {outs : List (Option V)} (inv : h.Inv known)
    (knows : ∀ op ∈ ops, ∀ id ∈ op.inserts h.prf, known id) (hrun : h.run math ops = .ok (outs, h')) :
    h'.Inv known ∧ h'.prf = h.prf ∧ h.trace <:+ h'.trace := by
  induction ops generalizing h outs with
  | nil =>
    simp only [run, Except.ok.injEq, Prod.mk.injEq] at hrun
    exact hrun.2 ▸ ⟨inv, rfl, List.suffix_refl _⟩
  | cons op ops ih =>
    obtain ⟨out, outs', g, hstep, htail, -⟩ := run_cons hrun
    obtain ⟨ginv, gprf, gtrace⟩ := step_inv inv (knows op (.head _)) hstep
    obtain ⟨inv', prf', trace'⟩ := ih ginv (fun op hop id hid => knows op (.tail _ hop) id (gprf ▸ hid)) htail
    exact ⟨inv', prf'.trans gprf, gtrace.trans trace'⟩

end Steps
end ObliviousHistogram

/-- The representation of a tree whose inserted tags and payloads are `known`. -/
structure Representation (known : UInt64 × Vector UInt8 K → Prop) (h : ObliviousHistogram Z K A S V) :
    Prop where
  memory : h.physicalMemory.length = 2 ^ (h.height + 1) * Z
  path_size : h.stash.pathSize = Z * (h.height + 1)
  blocks : h.stash.blocks.length = h.stash.pathSize + S
  on_path : ∀ d ≤ h.height, ∀ n, 2 ^ d ≤ n → n < 2 ^ (d + 1) → ∀ b ∈ bucketAt Z h.physicalMemory n,
    b.isReal = true → toLeaf b.tag h.height >>> (h.height - d) = n
  bucket_zero : ∀ b ∈ bucketAt Z h.physicalMemory 0, b.isReal = false
  path_region : ∀ b ∈ h.stash.blocks.take h.stash.pathSize, b.isReal = false
  distinct : Identified known → ∀ n, ((reals (bucketAt Z h.physicalMemory n)).map OramBlock.payload).Nodup

theorem ObliviousHistogram.Inv.representation {known : UInt64 × Vector UInt8 K → Prop}
    {h : ObliviousHistogram Z K A S V} (inv : h.Inv known) : Representation known h := by
  have shape := inv.shape
  refine ⟨shape.memory, shape.path, shape.slots, fun d hd n low high b hb real => ?_, shape.bucket_zero,
    shape.path_region, inv.distinct⟩
  have pos := Nat.two_pow_pos d
  have inside : n < 2 ^ (h.height + 1) :=
    high.trans_le (Nat.pow_le_pow_right Nat.two_pos (Nat.succ_le_succ hd))
  have here := inv.onPath n (pos.trans_le low) inside b (mem_reals.mpr ⟨hb, real⟩)
  rwa [toLeaf_shiftRight b.tag hd shape.height_le, ← log2_of_bounds low high]

/-- Every reachable state represents the tags and payloads its run inserted. -/
theorem tree_representation [Add V] [Inhabited V] {cap : Nat} {prf : Aes128}
    {ops : List (TreeOp K V)} {outs : List (Option V)} {h : ObliviousHistogram Z K A S V}
    (hrun : runNew math cap prf ops = .ok (outs, h)) :
    Representation (fun id => ∃ op ∈ ops, id ∈ op.inserts prf) h := by
  obtain ⟨h₀, start, hrun⟩ := bind_ok hrun
  obtain ⟨inv₀, -, hprf, -⟩ := new_spec start
  exact (run_inv inv₀ (fun op hop id hid => ⟨op, hop, hprf ▸ hid⟩) hrun).1.representation

/-- Formulas with constant results, for runs on fixed inputs. -/
def ResizeMath.constant : ResizeMath where
  word _ _ := 0
  newSampler _ := .ok { failureCutoff := 0, trials := 0 }
  rawK _ _ _ := 1
  deterministicUnits _ _ _ _ _ := 0
  inTailRange _ := true
  quantile _ _ := 0
  attemptsTail _ := 0

theorem exists_of_toBool {ε α : Type} {x : Except ε α} (ok : x.toBool = true) : ∃ a, x = .ok a := by
  cases x with
  | error e => simp [Except.toBool] at ok
  | ok a => exact ⟨a, rfl⟩

theorem eq_ok_of_toOption {ε α : Type} {x : Except ε α} {a : α} (some : x.toOption = .some a) : x = .ok a := by
  cases x with
  | error e => exact nomatch some
  | ok b => exact congrArg _ (Option.some.inj some)

theorem tree_representation_append_grow :
    ∃ (outs : List (Option Nat)) (h : ObliviousHistogram 1 1 1 2 Nat),
      runNew .constant 2 id [.append [1] 5, .grow] = .ok (outs, h) ∧
      Representation (fun id' => ∃ op ∈ [TreeOp.append [1] 5, .grow], id' ∈ op.inserts id) h := by
  have run : ((runNew .constant 2 id [.append [1] 5, .grow] :
    Except Panic (List (Option Nat) × ObliviousHistogram 1 1 1 2 Nat))).toBool = true := by decide +kernel
  obtain ⟨⟨outs, h⟩, run⟩ := exists_of_toBool run
  exact ⟨outs, h, run, tree_representation run⟩

end Roga
