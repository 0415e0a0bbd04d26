import Roga.Histogram.Ops
import Roga.Histogram.WriteToPath

/-! One path access, from the buckets read to the buckets written back. -/
namespace Roga
open Ct Reals ObliviousStash
variable {Z K A S : Nat} {V : Type}

namespace ObliviousHistogram

/-- The real blocks of tree node `n`. -/
def bucket (h : ObliviousHistogram Z K A S V) (n : TreeIndex) : List (OramBlock K V) :=
  reals (bucketAt Z h.physicalMemory n)

/-- The real blocks of the overflow region. -/
def overflow (h : ObliviousHistogram Z K A S V) : List (OramBlock K V) := reals h.stash.overflowSlots

/-- All real blocks, tree first. -/
def contents (h : ObliviousHistogram Z K A S V) : List (OramBlock K V) :=
  (List.range (2 ^ (h.height + 1))).flatMap h.bucket ++ h.overflow

/-- Sizes, and the slots that hold dummies between operations. -/
structure Shape (h : ObliviousHistogram Z K A S V) : Prop where
  bucket_pos : 0 < Z
  height_pos : 0 < h.height
  height_le : h.height ≤ 31
  memory : h.physicalMemory.length = 2 ^ (h.height + 1) * Z
  path : h.stash.pathSize = Z * (h.height + 1)
  slots : h.stash.blocks.length = h.stash.pathSize + S
  bucket_zero : ∀ b ∈ bucketAt Z h.physicalMemory 0, b.isReal = false
  path_region : ∀ b ∈ h.stash.blocks.take h.stash.pathSize, b.isReal = false

/-- Every real block in the tree lies on the path of its tag. -/
def OnPath (h : ObliviousHistogram Z K A S V) : Prop :=
  ∀ n, 0 < n → n < 2 ^ (h.height + 1) → ∀ b ∈ h.bucket n, toLeaf b.tag n.log2 = n

/-- The path nodes of a leaf, root first. -/
def pathNodes (leaf height : Nat) : List TreeIndex :=
  (List.range (height + 1)).map fun depth => ctNodeOnPath leaf depth height

/-- The real blocks a path access reads. -/
def held (h : ObliviousHistogram Z K A S V) (leaf : TreeIndex) : List (OramBlock K V) :=
  (pathNodes leaf h.height).flatMap h.bucket ++ h.overflow

/-- The real blocks a path access leaves alone. -/
def rest (h : ObliviousHistogram Z K A S V) (leaf : TreeIndex) : List (OramBlock K V) :=
  ((List.range (2 ^ (h.height + 1))).filter fun n => n ∉ pathNodes leaf h.height).flatMap h.bucket

end ObliviousHistogram

open ObliviousHistogram

theorem log2_of_bounds {n d : Nat} (low : 2 ^ d ≤ n) (high : n < 2 ^ (d + 1)) : n.log2 = d := by
  rw [Nat.log2_eq_iff (by have := Nat.two_pow_pos d; omega)]
  exact ⟨low, high⟩

section Nodes
variable {leaf height : Nat}

theorem mem_pathNodes {n : Nat} :
    n ∈ pathNodes leaf height ↔ ∃ d ≤ height, n = ctNodeOnPath leaf d height := by
  simp only [pathNodes, List.mem_map, List.mem_range, Nat.lt_succ_iff]
  exact ⟨fun ⟨d, hd, h⟩ => ⟨d, hd, h.symm⟩, fun ⟨d, hd, h⟩ => ⟨d, hd, h.symm⟩⟩

variable (low : 2 ^ height ≤ leaf) (high : leaf < 2 ^ (height + 1))
include low high

theorem pathNodes_nodup : (pathNodes leaf height).Nodup :=
  List.nodup_range.map_on fun _ hd _ hd' same => ctNodeOnPath_inj low high
    (Nat.lt_succ_iff.mp (List.mem_range.mp hd)) (Nat.lt_succ_iff.mp (List.mem_range.mp hd')) same

theorem ctNodeOnPath_lt {d : Nat} (hd : d ≤ height) :
    0 < ctNodeOnPath leaf d height ∧ ctNodeOnPath leaf d height < 2 ^ (height + 1) := by
  have bounds := ctNodeOnPath_bounds low high hd
  have pos := Nat.two_pow_pos d
  exact ⟨pos.trans_le bounds.1, bounds.2.trans_le (Nat.pow_le_pow_right Nat.two_pos (by omega))⟩

/-- The tree nodes are the path nodes and the others. -/
theorem range_perm_pathNodes : (List.range (2 ^ (height + 1))).Perm
    ((List.range (2 ^ (height + 1))).filter (fun n => n ∉ pathNodes leaf height) ++
      pathNodes leaf height) := by
  have onPath : ((List.range (2 ^ (height + 1))).filter fun n => n ∈ pathNodes leaf height).Perm
      (pathNodes leaf height) := by
    rw [List.perm_ext_iff_of_nodup (List.nodup_range.filter _) (pathNodes_nodup low high)]
    intro n
    rw [List.mem_filter, List.mem_range, decide_eq_true_eq]
    refine and_iff_right_of_imp fun h => ?_
    obtain ⟨d, hd, rfl⟩ := mem_pathNodes.mp h
    exact (ctNodeOnPath_lt low high hd).2
  have split := List.filter_append_perm (fun n => decide (n ∈ pathNodes leaf height))
    (List.range (2 ^ (height + 1)))
  refine split.symm.trans (List.perm_append_comm.trans ?_)
  refine List.Perm.append ?_ onPath
  refine .of_eq (List.filter_congr fun n _ => ?_)
  by_cases h : n ∈ pathNodes leaf height <;> simp [h]

theorem contents_perm {h : ObliviousHistogram Z K A S V} (hh : h.height = height) :
    h.contents.Perm (h.rest leaf ++ h.held leaf) := by
  subst hh
  rw [contents, held, ObliviousHistogram.rest, ← List.append_assoc, ← List.flatMap_append]
  exact ((range_perm_pathNodes low high).flatMap_right _).append_right _

end Nodes

section Read

theorem drop_setBucket {T : Type} {mem : List T} {i m : Nat} {xs : List T}
    (fits : i * Z + Z ≤ m) (len : xs.length = Z) (inside : i * Z + Z ≤ mem.length) :
    (setBucket Z mem i xs).drop m = mem.drop m := by
  apply List.ext_getElem?
  intro k
  rw [List.getElem?_drop, List.getElem?_drop, setBucket, List.getElem?_append_right (by
    rw [List.length_append, List.length_take]; omega), List.getElem?_drop, List.length_append,
    List.length_take, len]
  congr 1
  omega

theorem drop_setBuckets {T : Type} {src : Nat → List T} {ds : List Nat} {m : Nat} {mem : List T}
    (fits : ∀ d ∈ ds, d * Z + Z ≤ m) (len : ∀ d ∈ ds, (src d).length = Z) (inside : m ≤ mem.length) :
    (setBuckets Z id src ds mem).drop m = mem.drop m := by
  induction ds generalizing mem with
  | nil => rfl
  | cons d ds ih =>
    have room := fits d (.head _)
    have step := setBucket_length (i := d) (room.trans inside) (len d (.head _))
    rw [setBuckets, List.foldl_cons]
    exact (ih (fun d' h => fits d' (.tail _ h))
      (fun d' h => len d' (.tail _ h)) (step ▸ inside)).trans
      (drop_setBucket room (len d (.head _)) (room.trans inside))

/-- After `read_from_path` the path region holds the path buckets, root first. -/
theorem readFromPath_blocks {h : ObliviousHistogram Z K A S V} (shape : h.Shape) {leaf : TreeIndex}
    (low : 2 ^ h.height ≤ leaf) (high : leaf < 2 ^ (h.height + 1)) :
    (h.stash.readFromPath h.physicalMemory leaf).blocks =
      (pathNodes leaf h.height).flatMap (bucketAt Z h.physicalMemory) ++ h.stash.overflowSlots := by
  have region : h.stash.pathSize = (h.height + 1) * Z := shape.path.trans (Nat.mul_comm _ _)
  have levels : h.stash.pathSize / Z = h.height + 1 := by
    rw [region, Nat.mul_div_cancel _ shape.bucket_pos]
  have fits : ∀ d ∈ (List.range (h.height + 1)).reverse, d * Z + Z ≤ h.stash.pathSize := fun d hd => by
    rw [region]
    exact bucket_fits (List.mem_range.mp (List.mem_reverse.mp hd))
  have slots := shape.slots
  have widths : ∀ d ∈ (List.range (h.height + 1)).reverse,
      (bucketAt Z h.physicalMemory (ctNodeOnPath leaf d h.height)).length = Z := fun d hd =>
    bucketAt_length (shape.memory ▸ bucket_fits (ctNodeOnPath_lt low high
      (Nat.lt_succ_iff.mp (List.mem_range.mp (List.mem_reverse.mp hd)))).2)
  have nodup : ((List.range (h.height + 1)).reverse.map id).Nodup := by
    rw [List.map_id]
    exact List.nodup_reverse.mpr List.nodup_range
  rw [readFromPath]
  simp only [ctDepth_of_bounds low high shape.height_le, levels]
  have inside : ∀ d ∈ (List.range (h.height + 1)).reverse, id d * Z + Z ≤ h.stash.blocks.length :=
    fun d hd => (fits d hd).trans (by omega)
  have whole := setBuckets_length inside widths
  have buckets := fun d hd => bucketAt_setBuckets inside widths nodup (d := d) hd
  have tail := drop_setBuckets fits widths (show h.stash.pathSize ≤ h.stash.blocks.length by omega)
  generalize setBuckets Z id (fun d => bucketAt Z h.physicalMemory (ctNodeOnPath leaf d h.height))
    (List.range (h.height + 1)).reverse h.stash.blocks = out at *
  rw [← List.take_append_drop h.stash.pathSize out, tail, overflowSlots]
  congr 1
  have front : (out.take h.stash.pathSize).length = (h.height + 1) * Z := by
    rw [List.length_take]
    omega
  rw [← flatMap_bucketAt front, pathNodes, List.flatMap_map]
  refine List.flatMap_congr fun d hd => ?_
  have room := fits d (List.mem_reverse.mpr hd)
  rw [← buckets d (List.mem_reverse.mpr hd), id]
  nth_rewrite 2 [← List.take_append_drop h.stash.pathSize out]
  exact (bucketAt_append (by rw [front, ← region]; exact room) _).symm

theorem reals_flatMap {ι : Type} (is : List ι) (f : ι → List (OramBlock K V)) :
    reals (is.flatMap f) = is.flatMap fun i => reals (f i) := by
  induction is with
  | nil => rfl
  | cons i is ih => rw [List.flatMap_cons, reals_append, ih, List.flatMap_cons]

theorem reals_readFromPath {h : ObliviousHistogram Z K A S V} (shape : h.Shape) {leaf : TreeIndex}
    (low : 2 ^ h.height ≤ leaf) (high : leaf < 2 ^ (h.height + 1)) :
    reals (h.stash.readFromPath h.physicalMemory leaf).blocks = h.held leaf := by
  rw [readFromPath_blocks shape low high, reals_append, reals_flatMap]
  rfl

theorem readFromPath_length {h : ObliviousHistogram Z K A S V} (shape : h.Shape) {leaf : TreeIndex}
    (low : 2 ^ h.height ≤ leaf) (high : leaf < 2 ^ (h.height + 1)) :
    (h.stash.readFromPath h.physicalMemory leaf).blocks.length = h.stash.blocks.length := by
  have widths : ∀ n ∈ pathNodes leaf h.height, (bucketAt Z h.physicalMemory n).length = Z :=
    fun n hn => by
      obtain ⟨d, hd, rfl⟩ := mem_pathNodes.mp hn
      exact bucketAt_length (shape.memory ▸ bucket_fits (ctNodeOnPath_lt low high hd).2)
  rw [readFromPath_blocks shape low high, List.length_append, List.length_flatMap,
    List.map_congr_left widths, List.map_const', List.sum_replicate, pathNodes, List.length_map,
    List.length_range, overflowSlots, List.length_drop, shape.slots, shape.path, smul_eq_mul,
    Nat.mul_comm]
  omega

end Read

section Merge

/-- The routing identity of a block. -/
def OramBlock.identity (b : OramBlock K V) : UInt64 × Vector UInt8 K := (b.tag, b.payload)

/-- Payload and tag, bit 31 of the tag aside, determine each other. -/
def Identified (known : UInt64 × Vector UInt8 K → Prop) : Prop :=
  ∀ a b, known a → known b → (a.2 = b.2 ↔ identityBits a.1 = identityBits b.1)

theorem identity_sublist {ins outs : List (OramBlock K V)}
    (fields : List.Forall₂ (fun a b => b.payload = a.payload ∧ (b.tag = a.tag ∨ b.tag = 0)) ins outs) :
    ((reals outs).map OramBlock.identity).Sublist ((reals ins).map OramBlock.identity) := by
  induction fields with
  | nil => exact .slnil
  | @cons a b _ _ head _ ih =>
    cases hb : b.isReal with
    | false =>
      rw [reals_cons_dummy hb]
      cases ha : a.isReal with
      | false => rwa [reals_cons_dummy ha]
      | true =>
        rw [reals_cons_real ha]
        exact ih.cons _
    | true =>
      have tag := head.2.resolve_right (OramBlock.isReal_iff.mp hb)
      have ha : a.isReal = true := by rwa [OramBlock.isReal, ← tag]
      have same : b.identity = a.identity := by rw [OramBlock.identity, tag, head.1, OramBlock.identity]
      rw [reals_cons_real hb, reals_cons_real ha, List.map_cons, List.map_cons, same]
      exact ih.cons_cons _

/-- What sorting by the rank of a path and reducing leaves. -/
structure Merged (leaf height : Nat) (before after : List (OramBlock K V)) : Prop where
  length : after.length = before.length
  known : ∀ b ∈ reals after, ∃ a ∈ reals before, a.identity = b.identity
  sorted : (reals after).Pairwise fun a b => rank a.tag leaf height ≤ rank b.tag leaf height

theorem rank_le_of_key {a b : UInt64} (ha : a ≠ 0) (hb : b ≠ 0) {leaf height : Nat} (hh : height ≤ 31)
    (h : pathRankKey a leaf height ≤ pathRankKey b leaf height) :
    rank a leaf height ≤ rank b leaf height := by
  rw [UInt64.le_iff_toNat_le, pathRankKey_toNat a leaf hh, pathRankKey_toNat b leaf hh, if_neg ha,
    if_neg hb] at h
  have := a.toNat_lt
  have := b.toNat_lt
  omega

theorem isReal_of_pathRankKey {a b : OramBlock K V} {leaf height : Nat} (hh : height ≤ 31)
    (ha : a.isReal = true) (same : pathRankKey b.tag leaf height = pathRankKey a.tag leaf height) :
    b.isReal = true := by
  rw [OramBlock.isReal_iff]
  intro dummy
  have values := congrArg UInt64.toNat same
  have small := rank_lt a.tag leaf hh
  have := a.tag.toNat_lt
  rw [pathRankKey_toNat b.tag leaf hh, pathRankKey_toNat a.tag leaf hh, if_pos dummy,
    if_neg (OramBlock.isReal_iff.mp ha)] at values
  omega

variable [Add V] [Inhabited V]

/-- A reduction makes up no identity. -/
theorem known_of_reduced {sorted blocks : List (OramBlock K V)} (perm : sorted.Perm blocks)
    {b : OramBlock K V} (hb : b ∈ reals (reduceEqualRuns sorted)) :
    ∃ a ∈ reals blocks, a.identity = b.identity := by
  have sub := identity_sublist (reduceEqualRuns_fields sorted)
  obtain ⟨a, ha, same⟩ := List.mem_map.mp (sub.subset (List.mem_map.mpr ⟨b, hb, rfl⟩))
  exact ⟨a, (reals_perm perm).mem_iff.mp ha, same⟩

theorem sortReduce_merged (blocks : List (OramBlock K V)) (leaf : Nat) {height : Nat} (hh : height ≤ 31) :
    Merged leaf height blocks (sortReduce blocks fun block => pathRankKey block.tag leaf height) := by
  obtain ⟨sorted, perm, ascending, run⟩ :=
    sortReduce_eq blocks fun block => pathRankKey block.tag leaf height
  rw [run]
  have sub := identity_sublist (reduceEqualRuns_fields sorted)
  refine ⟨by rw [reduceEqualRuns_length, perm.length_eq], fun b hb => known_of_reduced perm hb, ?_⟩
  · have ranks : ((reals sorted).map OramBlock.identity).Pairwise fun a b =>
        rank a.1 leaf height ≤ rank b.1 leaf height := by
      rw [List.pairwise_map]
      refine (ascending.filter _).imp_of_mem fun {a b} ha hb h => ?_
      exact rank_le_of_key (OramBlock.isReal_iff.mp (List.mem_filter.mp ha).2)
        (OramBlock.isReal_iff.mp (List.mem_filter.mp hb).2) hh h
    exact (List.pairwise_map (f := OramBlock.identity)
      (R := fun a b => rank a.1 leaf height ≤ rank b.1 leaf height)).mp (ranks.sublist sub)

/-- When payloads and tags determine each other, a merge leaves one block for each payload. -/
theorem sortReduce_nodup (blocks : List (OramBlock K V)) (leaf : Nat) {height : Nat} (hh : height ≤ 31)
    {known : UInt64 × Vector UInt8 K → Prop} (identified : Identified known)
    (holds : ∀ b ∈ reals blocks, known b.identity) :
    ((reals (sortReduce blocks fun block => pathRankKey block.tag leaf height)).map
      OramBlock.payload).Nodup := by
  obtain ⟨sorted, perm, ascending, run⟩ :=
    sortReduce_eq blocks fun block => pathRankKey block.tag leaf height
  rw [run]
  refine reduceEqualRuns_nodup (grouped_of_sorted ascending fun a ha b hb c hc hab hbc har hcr pay => ?_)
  have knownOf : ∀ b ∈ sorted, b.isReal = true → known b.identity := fun b hb hr =>
    holds b (mem_reals.mpr ⟨perm.mem_iff.mp hb, hr⟩)
  have tags := (identified _ _ (knownOf a ha har) (knownOf c hc hcr)).mp pay.symm
  have keys : pathRankKey a.tag leaf height = pathRankKey c.tag leaf height :=
    (pathRankKey_inj (OramBlock.isReal_iff.mp har) (OramBlock.isReal_iff.mp hcr) hh).mpr tags
  have below : pathRankKey b.tag leaf height ≤ pathRankKey a.tag leaf height := by
    rw [keys]
    exact hbc
  have same : pathRankKey b.tag leaf height = pathRankKey a.tag leaf height :=
    UInt64.le_antisymm below hab
  have hbr : b.isReal = true := isReal_of_pathRankKey hh har same
  exact ⟨hbr, (identified _ _ (knownOf b hb hbr) (knownOf a ha har)).mpr
    ((pathRankKey_inj (OramBlock.isReal_iff.mp hbr) (OramBlock.isReal_iff.mp har) hh).mp same)⟩

end Merge

theorem sortReduce_mass {M : Type} [Add V] [AddCommSemigroup M] {f : V →ₙ+ M} [Inhabited V]
    (p : Vector UInt8 K) (blocks : List (OramBlock K V)) (keyOf : OramBlock K V → UInt64) :
    mass f p (sortReduce blocks keyOf) = mass f p blocks := by
  obtain ⟨sorted, perm, -, run⟩ := sortReduce_eq blocks keyOf
  rw [run, reduceEqualRuns_mass, mass_perm p perm]

section Write

/-- An access of the path of `leaf` that writes back the real blocks `kept`. -/
structure Accessed (h : ObliviousHistogram Z K A S V) (leaf : TreeIndex) (kept : List (OramBlock K V))
    (h' : ObliviousHistogram Z K A S V) : Prop where
  shape : h'.Shape
  height : h'.height = h.height
  contents : h'.contents.Perm (h.rest leaf ++ kept)
  off : ∀ n, n ∉ pathNodes leaf h.height → h'.bucket n = h.bucket n
  path : ∀ d ≤ h.height, (h'.bucket (ctNodeOnPath leaf d h.height)).Sublist kept ∧
    ∀ b ∈ h'.bucket (ctNodeOnPath leaf d h.height), toLeaf b.tag d = ctNodeOnPath leaf d h.height
  overflow : h'.overflow.Sublist kept
  sentinel : h'.overflow.length < S

theorem writePath_accessed [Inhabited V] {h : ObliviousHistogram Z K A S V} (shape : h.Shape)
    {leaf : TreeIndex} (low : 2 ^ h.height ≤ leaf) (high : leaf < 2 ^ (h.height + 1))
    {stash stash' : ObliviousStash Z K S V} {memory' : List (OramBlock K V)}
    (size : stash.pathSize = h.stash.pathSize) (length : stash.blocks.length = h.stash.blocks.length)
    (sorted : (reals stash.blocks).Pairwise fun a b => rank a.tag leaf h.height ≤ rank b.tag leaf h.height)
    (run : stash.writeToPath h.physicalMemory leaf = .ok (stash', memory'))
    {h' : ObliviousHistogram Z K A S V} (memory : h'.physicalMemory = memory') (hstash : h'.stash = stash')
    (height : h'.height = h.height) : Accessed h leaf (reals stash.blocks) h' := by
  subst memory hstash
  have slots := shape.slots
  obtain ⟨A, O, written⟩ := writeToPath_spec low high shape.height_le (size.trans shape.path)
    (by omega) shape.memory sorted run
  have offPath : ∀ n, n ∉ pathNodes leaf h.height →
      bucketAt Z h'.physicalMemory n = bucketAt Z h.physicalMemory n := fun n hn =>
    written.frame n fun d hd same => hn (mem_pathNodes.mpr ⟨d, hd, same⟩)
  have zero : 0 ∉ pathNodes leaf h.height := fun h0 => by
    obtain ⟨d, hd, same⟩ := mem_pathNodes.mp h0
    exact absurd (ctNodeOnPath_lt low high hd).1 (by rw [← same]; exact Nat.lt_irrefl 0)
  have onPath : ∀ d ≤ h.height, h'.bucket (ctNodeOnPath leaf d h.height) = A d := written.path
  have spill : h'.overflow = O := written.overflow
  have ordered := written.order
  have sub : ∀ d ≤ h.height, (A d).Sublist (reals stash.blocks) := fun d hd => by
    rw [ordered]
    exact (sublist_layout hd).trans (List.sublist_append_left _ _)
  refine ⟨⟨shape.bucket_pos, height ▸ shape.height_pos, height ▸ shape.height_le, ?_, ?_, ?_, ?_,
    written.path_region⟩, height, ?_, fun n hn => ?_, fun d hd => ?_, ?_, ?_⟩
  · rw [written.memory_length, shape.memory, height]
  · rw [written.pathSize, size, shape.path, height]
  · rw [written.length, written.pathSize, length, slots, size]
  · rw [offPath 0 zero]
    exact shape.bucket_zero
  · have split := contents_perm low high (h := h') height
    refine split.trans (List.Perm.append ?_ ?_)
    · rw [ObliviousHistogram.rest, ObliviousHistogram.rest, height]
      refine .of_eq (List.flatMap_congr fun n hn => ?_)
      have out := (List.mem_filter.mp hn).2
      rw [ObliviousHistogram.bucket, offPath n (by simpa using out)]
      rfl
    · rw [held, spill, ordered, layout_eq, pathNodes, height, List.flatMap_map,
        List.flatMap_congr fun d hd => onPath d (Nat.lt_succ_iff.mp (List.mem_range.mp hd))]
      exact ((List.reverse_perm _).symm.flatMap_right _).append_right _
  · rw [ObliviousHistogram.bucket, offPath n hn]
    rfl
  · rw [onPath d hd]
    exact ⟨sub d hd, written.legal d hd⟩
  · rw [spill, ordered]
    exact List.sublist_append_right _ _
  · rw [spill]
    have := written.sentinel
    omega

end Write
end Roga
