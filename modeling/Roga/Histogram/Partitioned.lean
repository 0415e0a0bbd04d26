import Roga.Histogram.Exports
import Roga.Oblivious.Router

/-! The readout by subtrees: the blocks above a cut are routed to the subtrees
below it, and every subtree is read out alone. -/
namespace Roga
open Ct Djbsort Reals ObliviousStash ObliviousHistogram
variable {Z K A S : Nat} {V : Type}

structure SubtreeReadoutOverflow where
  maxLoad : Nat
  inboxLen : Nat
  subtreeCount : Nat
deriving DecidableEq

/-- The subtree at a cut that a tag routes to. -/
def subtreeOf (cutDepth : Nat) (tag : UInt64) : Nat := (routingBits tag).toNat >>> (maxTreeHeight - cutDepth)

namespace ObliviousHistogram
variable [Add V] [Inhabited V]

section Model

/-- The part of the chunk at one depth of a subtree, from its breadth-first range. -/
def subtreeLevel (h : ObliviousHistogram Z K A S V) (cutDepth subtree localDepth : Nat) : List (OramBlock K V) :=
  let nodesAtDepth := 2 ^ localDepth
  let globalDepth := cutDepth + localDepth
  let globalFirstNode := 2 ^ globalDepth + subtree * nodesAtDepth
  let sourceStart := globalFirstNode * Z
  let sourceEnd := sourceStart + nodesAtDepth * Z
  (h.physicalMemory.take sourceEnd).drop sourceStart

/-- The dummy bucket, then the depths of the subtree one after the other. -/
def localTree (h : ObliviousHistogram Z K A S V) (cutDepth subtree depths : Nat) : List (OramBlock K V) :=
  List.replicate Z OramBlock.dummy ++ (List.range depths).flatMap (h.subtreeLevel cutDepth subtree)

/-- The solver of the quota is a parameter. -/
def inboxLen (suggestedPerShardQuota : Nat → Nat → Nat → Nat) (h : ObliviousHistogram Z K A S V)
    (cutDepth securityBits : Nat) : Nat :=
  let subtreeCount := 2 ^ cutDepth
  let upperTreeLen := subtreeCount * Z
  let upperInputLen := upperTreeLen + h.stash.overflowSlots.length
  (max (suggestedPerShardQuota upperInputLen subtreeCount securityBits) 1).nextPowerOfTwo

/-- The slots above the cut and of the overflow region, in one sorted and reduced sequence. -/
def upperReduced (h : ObliviousHistogram Z K A S V) (cutDepth : Nat) : List (OramBlock K V) :=
  let upperTreeLen := 2 ^ cutDepth * Z
  let upper := h.physicalMemory.take upperTreeLen ++ h.stash.overflowSlots
  reduceEqualRuns (sortBy upper treeReadoutGt)

def readoutSubtreePartitioned (suggestedPerShardQuota : Nat → Nat → Nat → Nat) (h : ObliviousHistogram Z K A S V)
    (localHeight securityBits : Nat) : Except SubtreeReadoutOverflow (List (OramBlock K V)) :=
  if localHeight ≥ h.height then .ok h.readoutTreeAware
  else
    let cutDepth := h.height - localHeight
    let subtreeCount := 2 ^ cutDepth
    let inboxLen := h.inboxLen suggestedPerShardQuota cutDepth securityBits
    let upper := h.upperReduced cutDepth
    let compactMarks := compactMarks upper
    let realUpperLen := compactMarks.getD upper.length 0
    let upper := compactPayload upper compactMarks
    let counts := countLoads (subtreeOf cutDepth) subtreeCount upper realUpperLen
    let maxLoad := maxLoad counts
    if maxLoad > inboxLen then .error { maxLoad, inboxLen, subtreeCount }
    else
      let upper := resizeBlocks upper (subtreeCount * inboxLen)
      let upper := distributePayload upper (buildDistributeMarksRouter counts inboxLen)
      .ok ((List.range subtreeCount).flatMap fun subtree =>
        obliviousTreeReadout Z (h.localTree cutDepth subtree (localHeight + 1) ++ bucketAt inboxLen upper subtree)
          inboxLen localHeight)

end Model

section Subtrees
omit [Add V] [Inhabited V]
variable {h : ObliviousHistogram Z K A S V} {cut depth s : Nat}

theorem toLeaf_subtreeOf (tag : UInt64) (hcut : cut ≤ 31) : toLeaf tag cut = 2 ^ cut + subtreeOf cut tag := by
  have split : 2 ^ 31 = 2 ^ cut * 2 ^ (31 - cut) := by
    rw [← Nat.pow_add]
    congr 1
    omega
  rw [toLeaf_eq, subtreeOf, routingBits_toNat, maxTreeHeight, Nat.shiftRight_eq_div_pow]
  generalize tag.toNat % 2 ^ 31 = bits
  rw [split, Nat.mul_comm, Nat.mul_add_div (Nat.two_pow_pos _)]

theorem subtreeOf_lt (tag : UInt64) (hcut : cut ≤ 31) : subtreeOf cut tag < 2 ^ cut := by
  have below : 2 ^ cut + subtreeOf cut tag < 2 ^ cut + 2 ^ cut := by
    rw [← toLeaf_subtreeOf tag hcut, ← Nat.mul_two, ← Nat.pow_succ]
    exact (toLeaf_bounds tag hcut).2
  exact Nat.lt_of_add_lt_add_left below

/-- A depth of a subtree is one bucket of wider buckets. -/
theorem subtreeLevel_eq : h.subtreeLevel cut s depth = bucketAt (2 ^ depth * Z) h.physicalMemory (2 ^ cut + s) := by
  have start : (2 ^ (cut + depth) + s * 2 ^ depth) * Z = (2 ^ cut + s) * (2 ^ depth * Z) := by
    rw [Nat.pow_add]
    ring
  rw [subtreeLevel, bucketAt, List.drop_take, start, Nat.add_sub_cancel_left]

variable (memory : h.physicalMemory.length = 2 ^ (h.height + 1) * Z) (inside : cut + depth ≤ h.height) (hs : s < 2 ^ cut)
include memory inside hs

theorem subtreeLevel_length : (h.subtreeLevel cut s depth).length = 2 ^ depth * Z := by
  rw [subtreeLevel_eq]
  refine bucketAt_length ?_
  have wide : 2 ^ cut + s < 2 ^ (cut + 1) := by
    rw [Nat.pow_succ]
    omega
  have room := bucket_fits (Z := 2 ^ depth * Z) wide
  have up : 2 ^ (cut + 1) * (2 ^ depth * Z) ≤ 2 ^ (h.height + 1) * Z := by
    rw [← Nat.mul_assoc, ← Nat.pow_add]
    exact Nat.mul_le_mul_right Z (Nat.pow_le_pow_right Nat.two_pos (by omega))
  omega

omit memory inside hs in
theorem subtreeLevel_bucket {i : Nat} (hi : i < 2 ^ depth) : bucketAt Z (h.subtreeLevel cut s depth) i =
    bucketAt Z h.physicalMemory (2 ^ (cut + depth) + (s * 2 ^ depth + i)) := by
  rw [subtreeLevel_eq, bucketAt_bucketAt hi, Nat.add_mul, ← Nat.pow_add, Nat.add_assoc]

omit memory in
/-- The blocks of a depth of a subtree route through the node that holds them. -/
theorem subtreeLevel_routed (onPath : h.OnPath) {i : Nat} (hi : i < 2 ^ depth) {b : OramBlock K V}
    (hb : b ∈ reals (bucketAt Z (h.subtreeLevel cut s depth) i)) :
    b ∈ h.bucket (2 ^ (cut + depth) + (s * 2 ^ depth + i)) ∧
      toLeaf b.tag (cut + depth) = 2 ^ (cut + depth) + (s * 2 ^ depth + i) := by
  have next : s * 2 ^ depth + i < 2 ^ (cut + depth) := by
    have step : (s + 1) * 2 ^ depth ≤ 2 ^ cut * 2 ^ depth := Nat.mul_le_mul_right _ hs
    rw [Nat.pow_add]
    rw [Nat.succ_mul] at step
    omega
  have up : 2 ^ (cut + depth) + (s * 2 ^ depth + i) < 2 ^ (cut + depth + 1) := by
    rw [Nat.pow_succ]
    omega
  rw [subtreeLevel_bucket hi] at hb
  have here := onPath _ (Nat.add_pos_left (Nat.two_pow_pos _) _)
    (up.trans_le (Nat.pow_le_pow_right Nat.two_pos (Nat.succ_le_succ inside))) b hb
  rw [log2_of_bounds (Nat.le_add_right _ _) up] at here
  exact ⟨hb, here⟩

end Subtrees

section Chunk
omit [Add V]
variable {h : ObliviousHistogram Z K A S V} {cut s k : Nat}

theorem localTree_succ (k : Nat) : h.localTree cut s (k + 1) = h.localTree cut s k ++ h.subtreeLevel cut s k := by
  rw [localTree, localTree, List.range_succ, List.flatMap_append, List.flatMap_singleton, List.append_assoc]

variable (memory : h.physicalMemory.length = 2 ^ (h.height + 1) * Z) (hs : s < 2 ^ cut)
include memory hs

theorem localTree_length (inside : cut + k ≤ h.height + 1) : (h.localTree cut s k).length = 2 ^ k * Z := by
  induction k with
  | zero => simp [localTree]
  | succ k ih =>
    rw [localTree_succ, List.length_append, ih (by omega), subtreeLevel_length memory (by omega) hs, Nat.pow_succ]
    ring

omit memory hs in
theorem localTree_zero (rest : List (OramBlock K V)) :
    ∀ b ∈ bucketAt Z (h.localTree cut s k ++ rest) 0, b.isReal = false := by
  intro b hb
  rw [bucketAt, Nat.zero_mul, List.drop_zero, localTree, List.append_assoc,
    List.take_left' (List.length_replicate ..)] at hb
  rw [List.eq_of_mem_replicate hb]
  rfl

theorem localTree_bucket {d i : Nat} (inside : cut + k ≤ h.height + 1) (hd : d < k) (hi : i < 2 ^ d)
    (rest : List (OramBlock K V)) : bucketAt Z (h.localTree cut s k ++ rest) (2 ^ d + i) =
      bucketAt Z (h.subtreeLevel cut s d) i := by
  induction k generalizing rest with
  | zero => exact absurd hd (Nat.not_lt_zero d)
  | succ k ih =>
    rw [localTree_succ, List.append_assoc]
    rcases Nat.lt_succ_iff_lt_or_eq.mp hd with below | rfl
    · exact ih (by omega) below _
    · rw [bucketAt_append_right (localTree_length memory hs (by omega))]
      refine bucketAt_append ?_ rest
      rw [subtreeLevel_length memory (by omega) hs]
      exact bucket_fits hi

/-- Every real block of the chunk's tree routes to the subtree. -/
theorem localTree_routed (onPath : h.OnPath) (height : h.height ≤ 31) (inside : cut + k ≤ h.height + 1)
    {b : OramBlock K V} (hb : b ∈ reals (h.localTree cut s k)) :
    (∃ n, b ∈ h.bucket n) ∧ toLeaf b.tag cut = 2 ^ cut + s := by
  induction k with
  | zero =>
    obtain ⟨hm, hr⟩ := mem_reals.mp hb
    rw [localTree, List.range_zero, List.flatMap_nil, List.append_nil] at hm
    rw [List.eq_of_mem_replicate hm] at hr
    exact absurd hr (by simp)
  | succ k ih =>
    rw [localTree_succ, reals_append] at hb
    rcases List.mem_append.mp hb with hb | hb
    · exact ih (by omega) hb
    · have depth : cut + k ≤ h.height := by omega
      have length := subtreeLevel_length memory depth hs
      rw [← flatMap_bucketAt length, reals_flatMap] at hb
      obtain ⟨i, hi, hb⟩ := List.mem_flatMap.mp hb
      obtain ⟨held, leaf⟩ := subtreeLevel_routed depth hs onPath (List.mem_range.mp hi) hb
      refine ⟨⟨_, held⟩, ?_⟩
      rw [← toLeaf_shiftRight b.tag (Nat.le_add_right cut k) (by omega), leaf, Nat.add_sub_cancel_left,
        Nat.shiftRight_eq_div_pow, Nat.pow_add, ← Nat.add_assoc, ← Nat.add_mul, Nat.mul_comm,
        Nat.mul_add_div (Nat.two_pow_pos k), Nat.div_eq_of_lt (List.mem_range.mp hi), Nat.add_zero]

/-- The chunk's tree lies in tree order, depth by depth. -/
theorem localTree_levelled (onPath : h.OnPath) {localHeight : Nat} (inside : cut + localHeight ≤ h.height)
    (rest : List (OramBlock K V)) : Levelled Z localHeight (h.localTree cut s (localHeight + 1) ++ rest) := by
  intro d hd i j hij hj a ha b hb
  rw [localTree_bucket memory hs (by omega) (Nat.lt_succ_of_le hd) (hij.trans hj)] at ha
  rw [localTree_bucket memory hs (by omega) (Nat.lt_succ_of_le hd) hj] at hb
  have depth : cut + d ≤ h.height := by omega
  have la := subtreeLevel_routed depth hs onPath (hij.trans hj) ha
  have lb := subtreeLevel_routed depth hs onPath hj hb
  exact treeKey_le_of_path (Nat.add_lt_add_left hij _) (mem_reals.mp ha).2 (mem_reals.mp hb).2 la.2 lb.2

end Chunk

section Whole
omit [Add V] [Inhabited V]
variable {h : ObliviousHistogram Z K A S V} {cut : Nat}

/-- The memory is its upper part and the depths of all subtrees. -/
theorem memory_perm (cut k : Nat) : (h.physicalMemory.take (2 ^ (cut + k) * Z)).Perm
    (h.physicalMemory.take (2 ^ cut * Z) ++ (List.range (2 ^ cut)).flatMap fun s =>
      (List.range k).flatMap (h.subtreeLevel cut s)) := by
  induction k with
  | zero =>
    rw [List.range_zero]
    exact .of_eq (by simp)
  | succ k ih =>
    have level : (List.range (2 ^ cut)).flatMap (fun s => h.subtreeLevel cut s k) =
        (h.physicalMemory.drop (2 ^ (cut + k) * Z)).take (2 ^ (cut + k) * Z) := by
      simp only [subtreeLevel_eq]
      rw [flatMap_bucketAt_add, ← Nat.mul_assoc, ← Nat.pow_add]
    rw [← Nat.add_assoc, Nat.pow_succ, Nat.mul_two, Nat.add_mul, List.take_add, ← level]
    refine ((ih.append_right _).trans (.of_eq (List.append_assoc ..))).trans ?_
    refine List.Perm.append_left _ ((List.flatMap_append_perm _ _ _).trans (.of_eq ?_))
    exact List.flatMap_congr fun s _ => by rw [List.range_succ, List.flatMap_append, List.flatMap_singleton]

end Whole
section Upper
variable {h : ObliviousHistogram Z K A S V} {cut : Nat}

omit [Add V] [Inhabited V] in
/-- The real blocks above the cut and in the overflow region. -/
def aboveCut (h : ObliviousHistogram Z K A S V) (cut : Nat) : List (OramBlock K V) :=
  (List.range (2 ^ cut)).flatMap h.bucket ++ h.overflow

omit [Add V] [Inhabited V] in
theorem reals_above (cut : Nat) : reals (h.physicalMemory.take (2 ^ cut * Z) ++ h.stash.overflowSlots) = h.aboveCut cut := by
  rw [reals_append, aboveCut, ← flatMap_bucketAt_take, reals_flatMap]
  rfl

omit [Add V] [Inhabited V] in
theorem aboveCut_subset (inside : cut ≤ h.height + 1) : h.aboveCut cut ⊆ h.contents := by
  intro b hb
  rcases List.mem_append.mp hb with hb | hb
  · obtain ⟨n, hn, hb⟩ := List.mem_flatMap.mp hb
    have wide := Nat.pow_le_pow_right Nat.two_pos inside
    exact List.mem_append_left _ (List.mem_flatMap.mpr
      ⟨n, List.mem_range.mpr ((List.mem_range.mp hn).trans_le wide), hb⟩)
  · exact List.mem_append_right _ hb

omit [Add V] [Inhabited V] in
/-- Tree order sorts by subtrees. -/
theorem subtreeOf_mono {a b : OramBlock K V} (ra : a.isReal = true) (rb : b.isReal = true)
    (le : treeKey a ≤ treeKey b) (cut : Nat) : subtreeOf cut a.tag ≤ subtreeOf cut b.tag := by
  rw [treeKey, treeKey, if_pos ra, if_pos rb, WithTop.coe_le_coe] at le
  have order : (treeOrder a.tag).toNat ≤ (treeOrder b.tag).toNat := by
    rcases Prod.Lex.toLex_le_toLex.mp le with lt | ⟨eq, -⟩
    · exact Nat.le_of_lt lt
    · exact Nat.le_of_eq eq
  rw [treeOrder_toNat, treeOrder_toNat] at order
  have := a.tag.toNat_lt
  have := b.tag.toNat_lt
  rw [subtreeOf, subtreeOf, Nat.shiftRight_eq_div_pow, Nat.shiftRight_eq_div_pow]
  exact Nat.div_le_div_right (by omega)

/-- What the reduction of the upper part keeps. -/
structure Upper (cut : Nat) (above xs : List (OramBlock K V)) : Prop where
  known : ∀ b ∈ xs, ∃ a ∈ above, a.identity = b.identity
  nodup : (xs.map OramBlock.payload).Nodup
  mass : ∀ {M : Type} [AddCommSemigroup M] (f : V →ₙ+ M) (p : Vector UInt8 K), mass f p xs = Roga.mass f p above
  ascending : xs.Pairwise fun a b => subtreeOf cut a.tag ≤ subtreeOf cut b.tag

theorem upperReduced_spec (tags : TagsAgree (h.aboveCut cut)) :
    Upper cut (h.aboveCut cut) (reals (h.upperReduced cut)) := by
  have perm := sortBy_perm (h.physicalMemory.take (2 ^ cut * Z) ++ h.stash.overflowSlots) treeReadoutGt
  have sorted := sortBy_ascending treeReadoutGt_spec (h.physicalMemory.take (2 ^ cut * Z) ++ h.stash.overflowSlots)
  have same := reals_perm perm
  rw [reals_above] at same
  rw [upperReduced]
  generalize sortBy (h.physicalMemory.take (2 ^ cut * Z) ++ h.stash.overflowSlots) treeReadoutGt = blocks
    at perm sorted same ⊢
  have grouped : Grouped blocks := grouped_of_key sorted treeKey_faithful fun a ha c hc pay => by
    rw [treeKey, treeKey, if_pos (mem_reals.mp ha).2, if_pos (mem_reals.mp hc).2, treePlace, treePlace, pay,
      tags c (same.mem_iff.mp hc) a (same.mem_iff.mp ha) pay]
  refine ⟨fun b hb => ?_, reduceEqualRuns_nodup grouped, fun f p => ?_, ?_⟩
  · obtain ⟨a, ha, id⟩ := known_of_reduced perm hb
    rw [reals_above] at ha
    exact ⟨a, ha, id⟩
  · rw [mass_reals, reduceEqualRuns_mass, mass_perm p perm, ← mass_reals, reals_above]
  · have whole : ((reals blocks).map OramBlock.identity).Pairwise fun a b =>
        subtreeOf cut a.1 ≤ subtreeOf cut b.1 := by
      rw [List.pairwise_map]
      refine (sorted.filter _).imp_of_mem fun {a b} ha hb le => ?_
      exact subtreeOf_mono (List.mem_filter.mp ha).2 (List.mem_filter.mp hb).2 le cut
    have kept := whole.sublist (identity_sublist (reduceEqualRuns_fields blocks))
    rw [List.pairwise_map] at kept
    exact kept

/-- The number of routed records of each subtree. -/
def loadsAbove (h : ObliviousHistogram Z K A S V) (cut : Nat) : List Nat :=
  (List.range (2 ^ cut)).map fun s => (reals (h.upperReduced cut)).countP fun b => subtreeOf cut b.tag = s

theorem readoutSubtreePartitioned_run (suggestedPerShardQuota : Nat → Nat → Nat → Nat) {localHeight : Nat}
    (securityBits : Nat) (below : localHeight < h.height) : ∃ rest, (∀ b ∈ rest, b.isReal = false) ∧
      let cut := h.height - localHeight
      let inboxLen := h.inboxLen suggestedPerShardQuota cut securityBits
      h.readoutSubtreePartitioned suggestedPerShardQuota localHeight securityBits =
        if maxLoad (h.loadsAbove cut) > inboxLen then .error ⟨maxLoad (h.loadsAbove cut), inboxLen, 2 ^ cut⟩
        else .ok ((List.range (2 ^ cut)).flatMap fun s =>
          obliviousTreeReadout Z (h.localTree cut s (localHeight + 1) ++
            bucketAt inboxLen (distributePayload (resizeBlocks (reals (h.upperReduced cut) ++ rest) (2 ^ cut * inboxLen))
              (buildDistributeMarksRouter (h.loadsAbove cut) inboxLen)) s) inboxLen localHeight) := by
  obtain ⟨rest, compacted, dummies⟩ := compactPayload_reals (h.upperReduced (h.height - localHeight))
  refine ⟨rest, dummies, ?_⟩
  have prefixLen := compactMarks_last (h.upperReduced (h.height - localHeight))
  have loads := countLoads_eq (subtreeOf (h.height - localHeight)) (2 ^ (h.height - localHeight))
    (reals (h.upperReduced (h.height - localHeight))) rest fun b hb => (mem_reals.mp hb).2
  rw [readoutSubtreePartitioned, if_neg (Nat.not_le.mpr below)]
  simp only [prefixLen, compacted, loads]
  rfl

end Upper

end ObliviousHistogram

section Exact
variable [AddCommSemigroup V] [Inhabited V] {h : ObliviousHistogram Z K A S V} {cut : Nat}

namespace ObliviousHistogram

/-- The payloads stored above the cut that route to a subtree. -/
def payloadsAbove (h : ObliviousHistogram Z K A S V) (cut subtree : Nat) : Finset (Vector UInt8 K) :=
  (((h.aboveCut cut).filter fun b => toLeaf b.tag cut = 2 ^ cut + subtree).map OramBlock.payload).toFinset

omit [Inhabited V] in
/-- The load of a subtree is the number of distinct payloads that route to it. -/
theorem Upper.load {above xs : List (OramBlock K V)} (upper : Upper cut above xs) (tags : TagsAgree above)
    (real : ∀ a ∈ above, a.isReal = true) (s : Nat) :
    (xs.countP fun b => subtreeOf cut b.tag = s) =
      ((above.filter fun b => subtreeOf cut b.tag = s).map OramBlock.payload).toFinset.card := by
  have nodup : ((xs.filter fun b => subtreeOf cut b.tag = s).map OramBlock.payload).Nodup :=
    upper.nodup.sublist (List.filter_sublist.map _)
  have same : ((xs.filter fun b => subtreeOf cut b.tag = s).map OramBlock.payload).toFinset =
      ((above.filter fun b => subtreeOf cut b.tag = s).map OramBlock.payload).toFinset := by
    ext p
    simp only [List.mem_toFinset, List.mem_map, List.mem_filter, decide_eq_true_eq]
    constructor
    · rintro ⟨b, ⟨hb, dest⟩, rfl⟩
      obtain ⟨a, ha, id⟩ := upper.known b hb
      obtain ⟨tag, pay⟩ := Prod.mk.inj id
      exact ⟨a, ⟨ha, by rw [show a.tag = b.tag from tag, dest]⟩, pay⟩
    · rintro ⟨a, ⟨ha, dest⟩, rfl⟩
      have held : Roga.mass (AddHom.id V) a.payload xs ≠ 0 := fun none =>
        mass_eq_zero.mp ((upper.mass _ _).symm.trans none) a ha (real a ha) rfl
      obtain ⟨b, hb, -, pay⟩ : ∃ b ∈ xs, b.isReal = true ∧ b.payload = a.payload := by
        by_contra none
        exact held (mass_eq_zero.mpr fun b hb hr hp => none ⟨b, hb, hr, hp⟩)
      obtain ⟨c, hc, id⟩ := upper.known b hb
      obtain ⟨tag, pay'⟩ := Prod.mk.inj id
      have agree := tags c hc a ha (pay'.trans pay)
      exact ⟨b, ⟨hb, by rw [← show c.tag = b.tag from tag, agree, dest]⟩, pay⟩
  rw [← same, List.toFinset_card_of_nodup nodup, List.length_map, List.countP_eq_length_filter]

/-- The block is a copy of a stored one and routes to the subtree. -/
def Routed (h : ObliviousHistogram Z K A S V) (cut s : Nat) (b : OramBlock K V) : Prop :=
  (∃ a ∈ h.contents, a.identity = b.identity) ∧ toLeaf b.tag cut = 2 ^ cut + s

omit [AddCommSemigroup V] [Inhabited V] in
theorem Routed.of_identity {s : Nat} {a b : OramBlock K V} (routed : h.Routed cut s a)
    (id : a.identity = b.identity) : h.Routed cut s b := by
  obtain ⟨⟨c, hc, same⟩, leaf⟩ := routed
  exact ⟨⟨c, hc, same.trans id⟩, by rw [← show a.tag = b.tag from congrArg Prod.fst id, leaf]⟩

variable (shape : h.Shape) (onPath : h.OnPath) (tags : TagsAgree h.contents)
include shape onPath tags

/-- The readout of one chunk. -/
theorem chunk_exported {z localHeight s : Nat} (hz : Z = 2 ^ z) (inside : cut + localHeight = h.height)
    (hs : s < 2 ^ cut) {inbox : List (OramBlock K V)} (routed : ∀ b ∈ reals inbox, h.Routed cut s b) :
    let chunk := h.localTree cut s (localHeight + 1) ++ inbox
    let out := obliviousTreeReadout Z chunk inbox.length localHeight
    Exported chunk out ∧ ∀ b ∈ reals out, h.Routed cut s b := by
  intro chunk out
  have all : ∀ b ∈ reals chunk, h.Routed cut s b := by
    intro b hb
    rw [reals_append] at hb
    rcases List.mem_append.mp hb with hb | hb
    · obtain ⟨⟨n, held⟩, leaf⟩ := localTree_routed shape.memory hs onPath shape.height_le (by omega) hb
      exact ⟨⟨b, mem_contents_of_bucket shape held, rfl⟩, leaf⟩
    · exact routed b hb
  have length : chunk.length = 2 ^ (localHeight + 1) * Z + inbox.length := by
    rw [List.length_append, localTree_length shape.memory hs (by omega)]
  have exported : Exported chunk out := by
    subst hz
    exact obliviousTreeReadout_spec length (localTree_zero inbox)
      (localTree_levelled shape.memory hs onPath (by omega) inbox) (tags.of_known fun b hb => (all b hb).1)
  refine ⟨exported, fun b hb => ?_⟩
  obtain ⟨a, ha, id⟩ := exported.known b hb
  exact (all a ha).of_identity id

omit [Inhabited V] onPath in
/-- Readouts of all subtrees, each with its own blocks, are one readout of the tree. -/
theorem exactFor_of_chunks {chunk out : Nat → List (OramBlock K V)} {n : Nat}
    (exported : ∀ s < n, Exported (chunk s) (out s)) (routed : ∀ s < n, ∀ b ∈ reals (out s), h.Routed cut s b)
    (whole : ∀ p, mass (AddHom.id V) p ((List.range n).flatMap chunk) = mass (AddHom.id V) p h.contents) :
    ExactFor h (entries ((List.range n).flatMap out)) := by
  refine exactFor_of_mass ?_ (fun p => ?_) shape
  · rw [reals_flatMap, List.map_flatMap, List.nodup_flatMap]
    refine ⟨fun s hs => (exported s (List.mem_range.mp hs)).nodup, List.pairwise_lt_range.imp_of_mem ?_⟩
    intro s t hs ht lt p first second
    obtain ⟨b, hb, rfl⟩ := List.mem_map.mp first
    obtain ⟨c, hc, pay⟩ := List.mem_map.mp second
    obtain ⟨⟨a, ha, id⟩, leaf⟩ := routed s (List.mem_range.mp hs) b hb
    obtain ⟨⟨a', ha', id'⟩, leaf'⟩ := routed t (List.mem_range.mp ht) c hc
    obtain ⟨tag, pay₁⟩ := Prod.mk.inj id
    obtain ⟨tag', pay₂⟩ := Prod.mk.inj id'
    have agree : b.tag = c.tag :=
      tag.symm.trans ((tags a ha a' ha' (pay₁.trans (pay.symm.trans pay₂.symm))).trans tag')
    rw [← agree, leaf] at leaf'
    exact lt.ne (Nat.add_left_cancel leaf')
  · rw [← whole p, mass_flatMap, mass_flatMap]
    exact congrArg List.sum (List.map_congr_left fun s hs => (exported s (List.mem_range.mp hs)).mass _ p)

end ObliviousHistogram

namespace ObliviousHistogram

/-- With room in every inbox the chunks together are an exact readout, each with its own payloads. -/
theorem chunks_exact {z : Nat} (hz : Z = 2 ^ z) (shape : h.Shape) (onPath : h.OnPath) (tags : TagsAgree h.contents)
    {localHeight quota : Nat} (split : cut + localHeight = h.height) {rest : List (OramBlock K V)}
    (dummies : ∀ b ∈ rest, b.isReal = false) (room : maxLoad (h.loadsAbove cut) ≤ quota) :
    let routed := distributePayload (resizeBlocks (reals (h.upperReduced cut) ++ rest) (2 ^ cut * quota))
      (buildDistributeMarksRouter (h.loadsAbove cut) quota)
    let out := fun s => obliviousTreeReadout Z (h.localTree cut s (localHeight + 1) ++ bucketAt quota routed s)
      quota localHeight
    ExactFor h (entries ((List.range (2 ^ cut)).flatMap out)) ∧
      ∀ s < 2 ^ cut, (out s).length = 2 ^ (localHeight + 1) * Z + quota ∧
        ∀ b ∈ reals (out s), toLeaf b.tag cut = 2 ^ cut + s := by
  intro routed out
  have deep : cut ≤ 31 := (split ▸ Nat.le_add_right cut localHeight).trans shape.height_le
  have subset : h.aboveCut cut ⊆ h.contents := aboveCut_subset (by omega)
  have upper := upperReduced_spec fun a ha b hb => tags a (subset ha) b (subset hb)
  have fits : ∀ s < 2 ^ cut, ((reals (h.upperReduced cut)).countP fun b => subtreeOf cut b.tag = s) ≤ quota :=
    fun s hs => maxLoad_le.mp room _ (List.mem_map.mpr ⟨s, List.mem_range.mpr hs, rfl⟩)
  have route := distributePayload_route (fun b hb => (mem_reals.mp hb).2) dummies upper.ascending
    (fun b _ => subtreeOf_lt b.tag deep) fits
  have routedLen : routed.length = 2 ^ cut * quota := route.1
  have inbox : ∀ s < 2 ^ cut, reals (bucketAt quota routed s) =
      (reals (h.upperReduced cut)).filter fun b => subtreeOf cut b.tag = s := route.2.2
  have size : ∀ s < 2 ^ cut, (bucketAt quota routed s).length = quota := fun s hs =>
    bucketAt_length (routedLen ▸ bucket_fits hs)
  have own : ∀ s < 2 ^ cut, ∀ b ∈ reals (bucketAt quota routed s), h.Routed cut s b := by
    intro s hs b hb
    rw [inbox s hs] at hb
    obtain ⟨hb, dest⟩ := List.mem_filter.mp hb
    obtain ⟨a, ha, id⟩ := upper.known b hb
    exact ⟨⟨a, subset ha, id⟩, by rw [toLeaf_subtreeOf _ deep, of_decide_eq_true dest]⟩
  have chunks : ∀ s < 2 ^ cut, Exported (h.localTree cut s (localHeight + 1) ++ bucketAt quota routed s) (out s) ∧
      ∀ b ∈ reals (out s), h.Routed cut s b := by
    intro s hs
    have chunk := chunk_exported shape onPath tags hz split hs (own s hs)
    rw [size s hs] at chunk
    exact chunk
  refine ⟨exactFor_of_chunks shape tags (fun s hs => (chunks s hs).1) (fun s hs => (chunks s hs).2) fun p => ?_,
    fun s hs => ⟨?_, fun b hb => ((chunks s hs).2 b hb).2⟩⟩
  · have lower := mass_perm (f := AddHom.id V) p (memory_perm (h := h) cut (localHeight + 1))
    have whole : mass (AddHom.id V) p routed = mass (AddHom.id V) p (h.aboveCut cut) := by
      rw [← upper.mass, ← mass_reals, ← flatMap_bucketAt routedLen, reals_flatMap,
        List.flatMap_congr fun s hs => inbox s (List.mem_range.mp hs),
        flatMap_bins upper.ascending fun b _ => subtreeOf_lt b.tag deep]
    have trees : mass (AddHom.id V) p ((List.range (2 ^ cut)).flatMap fun s => h.localTree cut s (localHeight + 1)) =
        mass (AddHom.id V) p ((List.range (2 ^ cut)).flatMap fun s =>
          (List.range (localHeight + 1)).flatMap (h.subtreeLevel cut s)) := by
      simp only [localTree]
      rw [← mass_perm p (List.flatMap_append_perm _ _ _), mass_append, mass_of_dummies p, zero_add]
      intro b hb
      obtain ⟨s, -, hb⟩ := List.mem_flatMap.mp hb
      rw [List.eq_of_mem_replicate hb]
      rfl
    have all : h.physicalMemory.take (2 ^ (cut + (localHeight + 1)) * Z) = h.physicalMemory :=
      List.take_of_length_le (by rw [shape.memory, ← Nat.add_assoc, split])
    rw [← mass_perm p (List.flatMap_append_perm _ _ _), mass_append, flatMap_bucketAt routedLen, whole, trees,
      ← reals_above, mass_reals, ← reals_slots shape, mass_reals, mass_append, mass_append, ← all, lower, mass_append,
      all]
    ac_rfl
  · rw [(chunks s hs).1.length, List.length_append, localTree_length shape.memory hs (by omega), size s hs]

end ObliviousHistogram

/-- The readout by subtrees is the tree-aware one below the cut, reports an inbox that is too small, and is
otherwise exact with every payload in its own subtree. -/
theorem readoutSubtreePartitioned_exact {z : Nat} (hz : Z = 2 ^ z) (shape : h.Shape) (onPath : h.OnPath)
    (tags : TagsAgree h.contents) (suggestedPerShardQuota : Nat → Nat → Nat → Nat) (localHeight securityBits : Nat) :
    (h.height ≤ localHeight →
      h.readoutSubtreePartitioned suggestedPerShardQuota localHeight securityBits = .ok h.readoutTreeAware) ∧
    (localHeight < h.height →
      let cut := h.height - localHeight
      let inboxLen := h.inboxLen suggestedPerShardQuota cut securityBits
      let chunkLen := 2 ^ (localHeight + 1) * Z + inboxLen
      ((∃ e, h.readoutSubtreePartitioned suggestedPerShardQuota localHeight securityBits = .error e) ↔
        ∃ s < 2 ^ cut, inboxLen < (h.payloadsAbove cut s).card) ∧
      ∀ out, h.readoutSubtreePartitioned suggestedPerShardQuota localHeight securityBits = .ok out →
        out.length = 2 ^ cut * chunkLen ∧ ExactFor h (entries out) ∧
          ∀ s < 2 ^ cut, ∀ b ∈ reals (bucketAt chunkLen out s), toLeaf b.tag cut = 2 ^ cut + s) := by
  refine ⟨fun low => by rw [readoutSubtreePartitioned, if_pos low], fun below => ?_⟩
  intro cut inboxLen chunkLen
  have hcut : cut ≤ h.height := Nat.sub_le _ _
  have deep : cut ≤ 31 := hcut.trans shape.height_le
  have split : cut + localHeight = h.height := Nat.sub_add_cancel below.le
  have above : TagsAgree (h.aboveCut cut) := fun a ha b hb =>
    tags a (aboveCut_subset (by omega) ha) b (aboveCut_subset (by omega) hb)
  have real : ∀ a ∈ h.aboveCut cut, a.isReal = true := fun a ha =>
    isReal_of_mem_contents (aboveCut_subset (by omega) ha)
  have upper := upperReduced_spec above
  have allReal : ∀ b ∈ reals (h.upperReduced cut), b.isReal = true := fun b hb => (mem_reals.mp hb).2
  have load : ∀ s, ((reals (h.upperReduced cut)).countP fun b => subtreeOf cut b.tag = s) =
      (h.payloadsAbove cut s).card := fun s => by
    rw [upper.load above real, payloadsAbove]
    simp only [toLeaf_subtreeOf _ deep, Nat.add_left_cancel_iff]
  have fits : maxLoad (h.loadsAbove cut) ≤ inboxLen ↔ ∀ s < 2 ^ cut, (h.payloadsAbove cut s).card ≤ inboxLen := by
    rw [maxLoad_le, loadsAbove]
    simp only [List.forall_mem_map, List.mem_range, load]
  obtain ⟨rest, dummies, run⟩ := readoutSubtreePartitioned_run suggestedPerShardQuota securityBits below
  rw [run]
  by_cases room : maxLoad (h.loadsAbove cut) ≤ inboxLen
  · rw [if_neg (Nat.not_lt.mpr room)]
    refine ⟨⟨fun ⟨e, failed⟩ => (nomatch failed), fun ⟨s, hs, more⟩ => ?_⟩, fun out done => ?_⟩
    · exact absurd (fits.mp room s hs) (Nat.not_le.mpr more)
    · obtain rfl := Except.ok.inj done
      obtain ⟨exact, own⟩ := chunks_exact hz shape onPath tags split dummies room
      refine ⟨flatMap_range_length fun s hs => (own s hs).1, exact, fun s hs b hb => (own s hs).2 b ?_⟩
      rwa [bucketAt_flatMap (fun s hs => (own s hs).1) hs] at hb
  · rw [if_pos (Nat.lt_of_not_le room)]
    refine ⟨⟨fun _ => ?_, fun _ => ⟨_, rfl⟩⟩, fun out done => nomatch done⟩
    by_contra none
    refine room (fits.mpr fun s hs => ?_)
    by_contra more
    exact none ⟨s, hs, Nat.lt_of_not_le more⟩

theorem readoutSubtreePartitioned_two_keys : ∃ (outs : List (Option Nat)) (h : ObliviousHistogram 1 1 1 2 Nat),
    runNew .constant 4 id [.append [1] 5, .append [2] 7, .append [1] 6] = .ok (outs, h) ∧
      ∃ out, h.readoutSubtreePartitioned (fun _ _ _ => 2) 1 80 = .ok out ∧ ExactFor h (entries out) := by
  have run : ((runNew .constant 4 id [.append [1] 5, .append [2] 7, .append [1] 6] :
    Except Panic (List (Option Nat) × ObliviousHistogram 1 1 1 2 Nat)).toOption.bind fun r =>
      if 1 < r.2.height then (r.2.readoutSubtreePartitioned (fun _ _ _ => 2) 1 80).toOption else none).isSome = true := by
    decide +kernel
  obtain ⟨out, run⟩ := Option.isSome_iff_exists.mp run
  obtain ⟨⟨outs, h⟩, run, read⟩ := Option.bind_eq_some_iff.mp run
  replace run := eq_ok_of_toOption run
  split at read
  · rename_i below
    replace read := eq_ok_of_toOption read
    obtain ⟨h₀, start, steps⟩ := bind_ok run
    obtain ⟨-, appended, holds⟩ := (Holds.new start).run separated_pair (by simp [TreeOp.Over]) steps
    exact ⟨outs, h, run, out, read, (((readoutSubtreePartitioned_exact (z := 0) rfl holds.inv.shape
      holds.inv.onPath (holds.inv.tagsAgree separated_pair) (fun _ _ _ => 2) 1 80).2 below).2 out read).2.1⟩
  · simp at read

end Exact
end Roga
