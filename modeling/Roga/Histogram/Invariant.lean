import Roga.Histogram.PathAccess
import Roga.Histogram.StashProofs

/-! The representation invariant of a tree, and what the building blocks of
the operations do to it and to the mass of every payload. -/
namespace Roga
open Ct Reals ObliviousStash
variable {Z K A S : Nat} {V : Type}

namespace ObliviousHistogram

/-- `known` holds of every tag and payload inserted. -/
structure Inv (known : UInt64 × Vector UInt8 K → Prop) (h : ObliviousHistogram Z K A S V) : Prop where
  shape : h.Shape
  onPath : h.OnPath
  inserted : ∀ b ∈ h.contents, known b.identity
  distinct : Identified known → ∀ n, ((h.bucket n).map OramBlock.payload).Nodup

variable {known : UInt64 × Vector UInt8 K → Prop} {h h' h₁ : ObliviousHistogram Z K A S V}

theorem Inv.congr (inv : h.Inv known) (memory : h'.physicalMemory = h.physicalMemory)
    (stash : h'.stash = h.stash) (height : h'.height = h.height) : h'.Inv known := by
  have bucket : h'.bucket = h.bucket := by
    funext n
    rw [ObliviousHistogram.bucket, memory]
    rfl
  have contents : h'.contents = h.contents := by
    rw [ObliviousHistogram.contents, ObliviousHistogram.contents, bucket, height,
      ObliviousHistogram.overflow, stash]
    rfl
  obtain ⟨⟨s₁, s₂, s₃, s₄, s₅, s₆, s₇, s₈⟩, onPath, inserted, distinct⟩ := inv
  refine ⟨⟨s₁, height ▸ s₂, height ▸ s₃, by rw [memory, height, s₄], by rw [stash, height, s₅],
    by rw [stash, s₆], memory ▸ s₇, stash ▸ s₈⟩, ?_, contents ▸ inserted, bucket ▸ distinct⟩
  rw [OnPath, bucket, height]
  exact onPath

theorem contents_congr (memory : h'.physicalMemory = h.physicalMemory) (stash : h'.stash = h.stash)
    (height : h'.height = h.height) : h'.contents = h.contents := by
  have bucket : h'.bucket = h.bucket := by
    funext n
    rw [ObliviousHistogram.bucket, memory]
    rfl
  rw [ObliviousHistogram.contents, ObliviousHistogram.contents, bucket, height,
    ObliviousHistogram.overflow, stash]
  rfl

theorem bucket_out_of_range (shape : h.Shape) {n : Nat} (hn : 2 ^ (h.height + 1) ≤ n) :
    h.bucket n = [] := by
  have far : h.physicalMemory.length ≤ n * Z := shape.memory ▸ Nat.mul_le_mul_right Z hn
  rw [ObliviousHistogram.bucket, bucketAt, List.drop_eq_nil_of_le far, List.take_nil, reals_nil]

theorem mem_contents_of_bucket (shape : h.Shape) {n : Nat} {b : OramBlock K V} (hb : b ∈ h.bucket n) :
    b ∈ h.contents := by
  refine List.mem_append_left _ (List.mem_flatMap.mpr ⟨n, List.mem_range.mpr ?_, hb⟩)
  by_contra out
  rw [bucket_out_of_range shape (Nat.le_of_not_lt out)] at hb
  exact List.not_mem_nil hb

theorem isReal_of_mem_contents {b : OramBlock K V} (hb : b ∈ h.contents) : b.isReal = true := by
  rcases List.mem_append.mp hb with hb | hb
  · obtain ⟨n, -, hb⟩ := List.mem_flatMap.mp hb
    exact (mem_reals.mp hb).2
  · exact (mem_reals.mp hb).2

section Access
variable {leaf : TreeIndex} (low : 2 ^ h.height ≤ leaf) (high : leaf < 2 ^ (h.height + 1))
include low high

/-- An access keeps the invariant when it writes back no identity it has not read. -/
theorem Inv.of_accessed (inv : h.Inv known) {kept : List (OramBlock K V)}
    (acc : Accessed h leaf kept h') (ids : ∀ b ∈ kept, ∃ a ∈ h.held leaf, a.identity = b.identity)
    (nodup : Identified known → (kept.map OramBlock.payload).Nodup) : h'.Inv known := by
  have split := contents_perm low high (h := h) rfl
  refine ⟨acc.shape, fun n pos hn b hb => ?_, fun b hb => ?_, fun identified n => ?_⟩
  · by_cases onPath : n ∈ pathNodes leaf h.height
    · obtain ⟨d, hd, rfl⟩ := mem_pathNodes.mp onPath
      have bounds := ctNodeOnPath_bounds low high hd
      rw [log2_of_bounds bounds.1 bounds.2]
      exact (acc.path d hd).2 b hb
    · rw [acc.off n onPath] at hb
      exact inv.onPath n pos (acc.height ▸ hn) b hb
  · rcases List.mem_append.mp (acc.contents.mem_iff.mp hb) with hb | hb
    · exact inv.inserted b (split.mem_iff.mpr (List.mem_append_left _ hb))
    · obtain ⟨a, ha, same⟩ := ids b hb
      rw [← same]
      exact inv.inserted a (split.mem_iff.mpr (List.mem_append_right _ ha))
  · by_cases onPath : n ∈ pathNodes leaf h.height
    · obtain ⟨d, hd, rfl⟩ := mem_pathNodes.mp onPath
      exact (nodup identified).sublist ((acc.path d hd).1.map _)
    · rw [acc.off n onPath]
      exact inv.distinct identified n

variable [Add V] [Inhabited V]

/-- The stash after `read_from_path` and `merge_accumulate_for_path`. -/
def mergedStash (h : ObliviousHistogram Z K A S V) (leaf : TreeIndex) : ObliviousStash Z K S V :=
  (h.stash.readFromPath h.physicalMemory leaf).mergeAccumulateForPath leaf

theorem mergedStash_spec (shape : h.Shape) :
    (h.mergedStash leaf).pathSize = h.stash.pathSize ∧
      (h.mergedStash leaf).blocks.length = h.stash.blocks.length ∧
      (∀ b ∈ reals (h.mergedStash leaf).blocks, ∃ a ∈ h.held leaf, a.identity = b.identity) ∧
      (reals (h.mergedStash leaf).blocks).Pairwise
        fun a b => rank a.tag leaf h.height ≤ rank b.tag leaf h.height := by
  have depth := ctDepth_of_bounds low high shape.height_le
  have merged := sortReduce_merged (h.stash.readFromPath h.physicalMemory leaf).blocks leaf shape.height_le
  rw [mergedStash, mergeAccumulateForPath, depth]
  refine ⟨rfl, merged.length.trans (readFromPath_length shape low high), ?_, merged.sorted⟩
  rw [← reals_readFromPath shape low high]
  exact merged.known

theorem mergedStash_nodup (inv : h.Inv known) (identified : Identified known) :
    ((reals (h.mergedStash leaf).blocks).map OramBlock.payload).Nodup := by
  have depth := ctDepth_of_bounds low high inv.shape.height_le
  rw [mergedStash, mergeAccumulateForPath, depth]
  refine sortReduce_nodup _ leaf inv.shape.height_le identified fun b hb => ?_
  rw [reals_readFromPath inv.shape low high] at hb
  exact inv.inserted b ((contents_perm low high rfl).mem_iff.mpr (List.mem_append_right _ hb))

end Access

theorem writePath_fields [Add V] [Inhabited V] {leaf : TreeIndex} (run : h.writePath leaf = .ok h') :
    h.stash.writeToPath h.physicalMemory leaf = .ok (h'.stash, h'.physicalMemory) ∧
      h' = { h with stash := h'.stash, physicalMemory := h'.physicalMemory } := by
  rw [writePath] at run
  cases written : h.stash.writeToPath h.physicalMemory leaf with
  | error e =>
    rw [written] at run
    exact absurd run (by simp [bind, Except.bind])
  | ok result =>
    rw [written] at run
    simp only [bind, Except.bind, pure, Except.pure, Except.ok.injEq] at run
    subst run
    exact ⟨rfl, rfl⟩

section Touch
variable {leaf : TreeIndex} (low : 2 ^ h.height ≤ leaf) (high : leaf < 2 ^ (h.height + 1))
include low high

/-- Reading, merging and writing back a path keeps the invariant. -/
theorem Inv.touch [Add V] [Inhabited V] (inv : h.Inv known) (memory : h₁.physicalMemory = h.physicalMemory)
    (stash : h₁.stash = h.mergedStash leaf) (height : h₁.height = h.height)
    (run : h₁.writePath leaf = .ok h') :
    h'.Inv known ∧ Accessed h leaf (reals (h.mergedStash leaf).blocks) h' := by
  obtain ⟨written, fields⟩ := writePath_fields run
  obtain ⟨size, length, ids, sorted⟩ := mergedStash_spec low high inv.shape
  rw [stash, memory] at written
  have acc := writePath_accessed inv.shape low high size length sorted written rfl rfl
    ((congrArg ObliviousHistogram.height fields).trans height)
  exact ⟨inv.of_accessed low high acc ids (mergedStash_nodup low high inv), acc⟩

/-- The same when `read_and_remove` has turned the blocks of one payload into dummies. -/
theorem Inv.touch_remove [Add V] [Inhabited V] (inv : h.Inv known)
    (memory : h₁.physicalMemory = h.physicalMemory) {payload : Vector UInt8 K}
    (stash : h₁.stash = ((h.mergedStash leaf).readAndRemove payload).2.2) (height : h₁.height = h.height)
    (run : h₁.writePath leaf = .ok h') : h'.Inv known ∧
      Accessed h leaf ((reals (h.mergedStash leaf).blocks).filter fun b => b.payload ≠ payload) h' := by
  obtain ⟨written, fields⟩ := writePath_fields run
  obtain ⟨size, length, ids, sorted⟩ := mergedStash_spec low high inv.shape
  have blocks : ((h.mergedStash leaf).readAndRemove payload).2.2.blocks = (h.mergedStash leaf).blocks.map
      fun b => if removed payload b then { b with tag := 0 } else b :=
    readAndRemoveLoop_blocks payload _ _ _
  have kept := reals_removed payload (h.mergedStash leaf).blocks
  rw [← blocks] at kept
  rw [stash, memory] at written
  have acc := writePath_accessed inv.shape low high
    (show ((h.mergedStash leaf).readAndRemove payload).2.2.pathSize = h.stash.pathSize from size)
    (by rw [blocks, List.length_map, length]) (by rw [kept]; exact sorted.filter _) written rfl rfl
    ((congrArg ObliviousHistogram.height fields).trans height)
  rw [kept] at acc
  refine ⟨inv.of_accessed low high acc (fun b hb => ids b (List.mem_filter.mp hb).1) fun identified => ?_,
    acc⟩
  exact (mergedStash_nodup low high inv identified).sublist (List.filter_sublist.map _)

end Touch

section Mass
variable {M : Type} [Add V] [AddCommSemigroup M] {f : V →ₙ+ M} [Inhabited V] {leaf : TreeIndex}
  (low : 2 ^ h.height ≤ leaf)
  (high : leaf < 2 ^ (h.height + 1))
include low high

theorem mergedStash_mass (shape : h.Shape) (p : Vector UInt8 K) :
    mass f p (h.mergedStash leaf).blocks = mass f p (h.held leaf) := by
  rw [mergedStash, mergeAccumulateForPath, sortReduce_mass, ← reals_readFromPath shape low high, mass_reals]

theorem Accessed.mass_eq (shape : h.Shape) (p : Vector UInt8 K)
    (acc : Accessed h leaf (reals (h.mergedStash leaf).blocks) h') :
    mass f p h'.contents = mass f p h.contents := by
  rw [mass_perm p acc.contents, mass_append, mass_reals, mergedStash_mass low high shape,
    mass_perm p (contents_perm low high rfl), mass_append]

end Mass
end ObliviousHistogram
end Roga
