import Mathlib.Data.Prod.Lex
import Roga.Histogram.PathAccess
import Roga.Histogram.Readout
import Roga.Oblivious.MergeProofs

/-! The exports of a tree agree and are exact. -/
namespace Roga
open Ct Djbsort Reals ObliviousStash
variable {Z K A S : Nat} {V : Type}

section Compare

theorem compareByte_spec (greater less : Bool) (x y : UInt8) :
    compareByte (greater.toUInt8, less.toUInt8) (x, y) =
      ((greater || (!less && decide (y < x))).toUInt8, (less || (!greater && decide (x < y))).toUInt8) := by
  simp only [compareByte, ctLtU8_spec, toUInt8_or, toUInt8_and, ctNot_toUInt8]
  cases greater <;> cases less <;> simp

theorem compareBytes_spec {xs ys : List UInt8} (len : xs.length = ys.length) (greater less : Bool) :
    (xs.zip ys).foldl compareByte (greater.toUInt8, less.toUInt8) =
      ((greater || (!less && decide (ys.map UInt8.toNat < xs.map UInt8.toNat))).toUInt8,
        (less || (!greater && decide (xs.map UInt8.toNat < ys.map UInt8.toNat))).toUInt8) := by
  induction xs generalizing ys greater less with
  | nil =>
    obtain rfl : ys = [] := List.length_eq_zero_iff.mp len.symm
    simp
  | cons x xs ih =>
    obtain ⟨y, ys, rfl⟩ := List.exists_cons_of_length_eq_add_one len.symm
    rw [List.zip_cons_cons, List.foldl_cons, compareByte_spec, ih (by simpa using len)]
    simp only [List.map_cons, List.cons_lt_cons_iff, UInt8.lt_iff_toNat_lt]
    rcases Nat.lt_trichotomy x.toNat y.toNat with lt | eq | gt
    · simp [lt, Nat.lt_asymm lt, lt.ne, lt.ne']
      cases greater <;> cases less <;> simp
    · simp [eq]
    · simp [gt, Nat.lt_asymm gt, gt.ne, gt.ne']
      cases greater <;> cases less <;> simp

theorem bytes_inj {p q : Vector UInt8 K} (same : bytes p = bytes q) : p = q := by
  have lists := List.map_injective_iff.mpr (fun _ _ => UInt8.toNat_inj.mp) same
  exact Vector.toList_inj.mp lists

theorem comparePayloads_spec (a b : Vector UInt8 K) (greater less : Bool) :
    (comparePayloads a b (greater.toUInt8, less.toUInt8)).1 =
      (greater || (!less && decide (bytes b < bytes a))).toUInt8 := by
  rw [comparePayloads, compareBytes_spec (by simp)]
  rfl

/-- Dummies above all payloads. -/
def payloadKey (b : OramBlock K V) : WithTop (List Nat) := if b.isReal then (bytes b.payload : WithTop (List Nat)) else ⊤

theorem payloadGt_spec (a b : OramBlock K V) :
    gt payloadGt a b = true ↔ payloadKey b < payloadKey a := by
  have ha : ctIsReal a.tag = a.isReal.toUInt8 := OramBlock.ctIsReal_isReal a
  have hb : ctIsReal b.tag = b.isReal.toUInt8 := OramBlock.ctIsReal_isReal b
  have start : ((0, 0) : UInt8 × UInt8) = (false.toUInt8, false.toUInt8) := rfl
  rw [gt, payloadGt]
  simp only [ha, hb, ctNot_toUInt8, toUInt8_and, start, comparePayloads_spec, toUInt8_or, payloadKey]
  rcases Bool.eq_false_or_eq_true a.isReal with ra | ra <;>
    rcases Bool.eq_false_or_eq_true b.isReal with rb | rb <;> simp [ra, rb]

theorem treeOrder_toNat (tag : UInt64) :
    (treeOrder tag).toNat = (routingBits tag).toNat * 2 ^ 32 + tag.toNat / 2 ^ 32 := by
  have small : (routingBits tag).toNat < 2 ^ 31 := by
    rw [routingBits_toNat]
    exact Nat.mod_lt _ (by decide)
  have low : tag.toNat / 2 ^ 32 < 2 ^ 32 := by
    have := tag.toNat_lt
    omega
  rw [treeOrder, UInt64.toNat_or, UInt64.toNat_shiftLeft, UInt64.toNat_shiftRight]
  change (routingBits tag).toNat <<< 32 % 2 ^ 64 ||| tag.toNat >>> 32 = _
  rw [Nat.mod_eq_of_lt (by rw [Nat.shiftLeft_eq]; omega), Nat.shiftRight_eq_div_pow,
    ← Nat.shiftLeft_add_eq_or_of_lt low, Nat.shiftLeft_eq]

/-- The place of a real block in tree order. -/
def treePlace (b : OramBlock K V) : Nat ×ₗ List Nat := toLex ((treeOrder b.tag).toNat, bytes b.payload)

/-- Dummies above all tags, then routing order, then payloads. -/
def treeKey (b : OramBlock K V) : WithTop (Nat ×ₗ List Nat) :=
  if b.isReal then (treePlace b : WithTop (Nat ×ₗ List Nat)) else ⊤

theorem treeReadoutGt_spec (a b : OramBlock K V) :
    gt treeReadoutGt a b = true ↔ treeKey b < treeKey a := by
  have ha : ctIsReal a.tag = a.isReal.toUInt8 := OramBlock.ctIsReal_isReal a
  have hb : ctIsReal b.tag = b.isReal.toUInt8 := OramBlock.ctIsReal_isReal b
  rw [gt, treeReadoutGt]
  simp only [ha, hb, ctNot_toUInt8, toUInt8_and, ctLt_spec, comparePayloads_spec, toUInt8_or, treeKey]
  rcases Bool.eq_false_or_eq_true a.isReal with ra | ra <;>
    rcases Bool.eq_false_or_eq_true b.isReal with rb | rb <;> simp [ra, rb, treePlace]
  rw [Prod.Lex.toLex_lt_toLex, UInt64.le_iff_toNat_le, UInt64.lt_iff_toNat_lt]
  rcases Nat.lt_trichotomy (treeOrder a.tag).toNat (treeOrder b.tag).toNat with lt | eq | gt
  · simp [Nat.lt_asymm lt, lt.ne', Nat.not_le.mpr lt]
  · simp [eq]
  · simp [gt]

end Compare

section Keys
variable {κ : Type} [LinearOrder κ] {greater : OramBlock K V → OramBlock K V → UInt8}
  {key : OramBlock K V → κ} (spec : ∀ a b, gt greater a b = true ↔ key b < key a)
include spec

theorem order_of_key : Network.WeakOrder (gt greater) := by
  have same : gt greater = fun a b => decide (key b < key a) :=
    funext₂ fun a b => Bool.eq_iff_iff.mpr ((spec a b).trans decide_eq_true_iff.symm)
  exact same ▸ .of_key key

theorem ascending_iff {xs : List (OramBlock K V)} :
    xs.Pairwise (fun a b => gt greater a b = false) ↔ xs.Pairwise fun a b => key a ≤ key b := by
  simp only [← Bool.not_eq_true, spec, not_lt]

theorem sortBy_ascending (xs : List (OramBlock K V)) :
    (sortBy xs greater).Pairwise fun a b => key a ≤ key b :=
  (ascending_iff spec).mp (sortBy_sorted (order_of_key spec) xs)

theorem mergeSortedBy_ascending {xs ys : List (OramBlock K V)} {x : Nat} (first : xs.length = 2 ^ x)
    (short : ys.length ≤ xs.length) (second : ys.length = 0 ∨ ∃ y, ys.length = 2 ^ y)
    (hxs : xs.Pairwise fun a b => key a ≤ key b) (hys : ys.Pairwise fun a b => key a ≤ key b) :
    (mergeSortedBy (xs ++ ys) xs.length greater).Pairwise fun a b => key a ≤ key b :=
  (ascending_iff spec).mp (mergeSortedBy_sorted (order_of_key spec) first short second
    ((ascending_iff spec).mpr hxs) ((ascending_iff spec).mpr hys))

end Keys

section Reduce

/-- Between two copies of a payload a faithful key leaves room for copies only. -/
theorem grouped_of_key {κ : Type} [LinearOrder κ] {key : OramBlock K V → κ} {blocks : List (OramBlock K V)}
    (ascending : blocks.Pairwise fun a b => key a ≤ key b)
    (faithful : ∀ a b, a.isReal = true → key a = key b → b.isReal = true ∧ b.payload = a.payload)
    (copies : ∀ a ∈ reals blocks, ∀ c ∈ reals blocks, c.payload = a.payload → key c = key a) :
    Grouped blocks :=
  grouped_of_sorted ascending fun a ha _ _ c hc hab hbc har hcr pay =>
    faithful a _ har (le_antisymm hab
      (hbc.trans_eq (copies a (mem_reals.mpr ⟨ha, har⟩) c (mem_reals.mpr ⟨hc, hcr⟩) pay)))

theorem payloadKey_faithful (a b : OramBlock K V) (real : a.isReal = true) (same : payloadKey a = payloadKey b) :
    b.isReal = true ∧ b.payload = a.payload := by
  rw [payloadKey, payloadKey, if_pos real] at same
  split at same
  · rename_i other
    exact ⟨other, (bytes_inj (WithTop.coe_injective same)).symm⟩
  · exact absurd same (WithTop.coe_ne_top)

theorem treeKey_faithful (a b : OramBlock K V) (real : a.isReal = true) (same : treeKey a = treeKey b) :
    b.isReal = true ∧ b.payload = a.payload := by
  rw [treeKey, treeKey, if_pos real] at same
  split at same
  · rename_i other
    have places := toLex.injective (WithTop.coe_injective same)
    exact ⟨other, (bytes_inj (congrArg Prod.snd places)).symm⟩
  · exact absurd same (WithTop.coe_ne_top)

variable [Add V] [Inhabited V]

/-- Equal payloads carry equal tags. -/
def TagsAgree (blocks : List (OramBlock K V)) : Prop :=
  ∀ a ∈ blocks, ∀ b ∈ blocks, a.payload = b.payload → a.tag = b.tag

omit [Add V] [Inhabited V] in
theorem TagsAgree.of_known {xs ys : List (OramBlock K V)} (tags : TagsAgree xs)
    (known : ∀ b ∈ ys, ∃ a ∈ xs, a.identity = b.identity) : TagsAgree ys := by
  intro b hb b' hb' pay
  obtain ⟨a, ha, id⟩ := known b hb
  obtain ⟨a', ha', id'⟩ := known b' hb'
  obtain ⟨tag, pay₁⟩ := Prod.mk.inj id
  obtain ⟨tag', pay₂⟩ := Prod.mk.inj id'
  exact tag.symm.trans ((tags a ha a' ha' (pay₁.trans (pay.trans pay₂.symm))).trans tag')

/-- What an export keeps: sizes, identities, one block for each payload, and every mass. -/
structure Exported (blocks out : List (OramBlock K V)) : Prop where
  length : out.length = blocks.length
  known : ∀ b ∈ reals out, ∃ a ∈ reals blocks, a.identity = b.identity
  nodup : ((reals out).map OramBlock.payload).Nodup
  mass : ∀ {M : Type} [AddCommSemigroup M] (f : V →ₙ+ M) (p : Vector UInt8 K),
    mass f p out = Roga.mass f p blocks

/-- `oblivious_readout` leaves one block for each payload, in a strictly ascending prefix. -/
theorem obliviousReadout_spec (blocks : List (OramBlock K V)) : Exported blocks (obliviousReadout blocks) ∧
    ∃ front rest, obliviousReadout blocks = front ++ rest ∧ (∀ b ∈ front, b.isReal = true) ∧
      (∀ b ∈ rest, b.isReal = false) ∧ front.Pairwise fun a b => bytes a.payload < bytes b.payload := by
  have perm := sortBy_perm blocks payloadGt
  have ascending := sortBy_ascending payloadGt_spec blocks
  rw [obliviousReadout]
  generalize sortBy blocks payloadGt = sorted at perm ascending
  have grouped : Grouped sorted := grouped_of_key ascending payloadKey_faithful fun a ha c hc pay => by
    rw [payloadKey, payloadKey, if_pos (mem_reals.mp ha).2, if_pos (mem_reals.mp hc).2, pay]
  have nodup := reduceEqualRuns_nodup grouped
  have sub := identity_sublist (reduceEqualRuns_fields sorted)
  have weak : ((reals (reduceEqualRuns sorted)).map OramBlock.payload).Pairwise fun p q => bytes p ≤ bytes q := by
    have whole : ((reals sorted).map OramBlock.identity).Pairwise fun a b => bytes a.2 ≤ bytes b.2 := by
      rw [List.pairwise_map]
      refine (ascending.filter _).imp_of_mem fun {a b} ha hb le => ?_
      rw [payloadKey, payloadKey, if_pos (List.mem_filter.mp ha).2, if_pos (List.mem_filter.mp hb).2] at le
      exact WithTop.coe_le_coe.mp le
    have kept := whole.sublist sub
    rw [List.pairwise_map] at kept ⊢
    exact kept
  obtain ⟨rest, compacted, dummies⟩ := compactPayload_reals (reduceEqualRuns sorted)
  have front : reals (reals (reduceEqualRuns sorted) ++ rest) = reals (reduceEqualRuns sorted) := by
    rw [reals_append, reals_eq_nil.mpr dummies, List.append_nil]
    exact reals_eq_self fun b hb => (mem_reals.mp hb).2
  refine ⟨⟨?_, fun b hb => ?_, ?_, fun f p => ?_⟩, reals (reduceEqualRuns sorted), rest, compacted,
    fun b hb => (mem_reals.mp hb).2, dummies, ?_⟩
  · rw [compactPayload_length, reduceEqualRuns_length, perm.length_eq]
  · rw [compacted, front] at hb
    exact known_of_reduced perm hb
  · rw [compacted, front]
    exact nodup
  · rw [mass_perm p (compactPayload_perm _ _), reduceEqualRuns_mass, mass_perm p perm]
  · rw [List.pairwise_map] at weak
    rw [List.Nodup, List.pairwise_map] at nodup
    exact (weak.and nodup).imp fun both => lt_of_le_of_ne both.1 fun same => both.2 (bytes_inj same)

end Reduce

section Levels
variable {blocks : List (OramBlock K V)}

theorem treeKey_dummy {b : OramBlock K V} (dummy : b.isReal = false) : treeKey b = ⊤ := by
  rw [treeKey, dummy]
  rfl

theorem ascending_dummies (dummies : ∀ b ∈ blocks, b.isReal = false) :
    blocks.Pairwise fun a b => treeKey a ≤ treeKey b :=
  List.pairwise_of_forall_mem_list fun _ _ b hb => treeKey_dummy (dummies b hb) ▸ le_top

/-- At each depth the buckets stand in tree order. -/
def Levelled (Z height : Nat) (blocks : List (OramBlock K V)) : Prop :=
  ∀ d ≤ height, ∀ i j, i < j → j < 2 ^ d → ∀ a ∈ reals (bucketAt Z blocks (2 ^ d + i)),
    ∀ b ∈ reals (bucketAt Z blocks (2 ^ d + j)), treeKey a ≤ treeKey b

/-- The sorted buckets of a level, compacted, are one ascending run. -/
theorem level_ascending {ι : Type} {is : List ι} {bucket : ι → List (OramBlock K V)}
    (apart : is.Pairwise fun i j => ∀ a ∈ reals (bucket i), ∀ b ∈ reals (bucket j), treeKey a ≤ treeKey b) :
    let level := is.flatMap fun i => sortBy (bucket i) treeReadoutGt
    (compactPayload level (compactMarks level)).Pairwise fun a b => treeKey a ≤ treeKey b := by
  intro level
  obtain ⟨rest, compacted, dummies⟩ := compactPayload_reals level
  rw [compacted, List.pairwise_append]
  refine ⟨?_, ascending_dummies dummies, fun a _ b hb => treeKey_dummy (dummies b hb) ▸ le_top⟩
  rw [reals_flatMap, List.pairwise_flatMap]
  have sorted : ∀ i, (reals (sortBy (bucket i) treeReadoutGt)).Perm (reals (bucket i)) := fun i =>
    reals_perm (sortBy_perm _ _)
  refine ⟨fun i _ => (sortBy_ascending treeReadoutGt_spec (bucket i)).filter _, apart.imp fun h a ha b hb =>
    h a ((sorted _).mem_iff.mp ha) b ((sorted _).mem_iff.mp hb)⟩

/-- One depth joins the run before it with its level and leaves the rest alone. -/
theorem mergeLevel_spec {z d : Nat} (inside : 2 ^ (d + 1) * 2 ^ z ≤ blocks.length)
    (before : (blocks.take (2 ^ d * 2 ^ z)).Pairwise fun a b => treeKey a ≤ treeKey b)
    (apart : ∀ i j, i < j → j < 2 ^ d → ∀ a ∈ reals (bucketAt (2 ^ z) blocks (2 ^ d + i)),
      ∀ b ∈ reals (bucketAt (2 ^ z) blocks (2 ^ d + j)), treeKey a ≤ treeKey b) :
    ∃ front, mergeLevel (2 ^ z) blocks d = front ++ blocks.drop (2 ^ (d + 1) * 2 ^ z) ∧
      front.Perm (blocks.take (2 ^ (d + 1) * 2 ^ z)) ∧ front.Pairwise fun a b => treeKey a ≤ treeKey b := by
  have twice : 2 ^ (d + 1) * 2 ^ z = 2 ^ d * 2 ^ z + 2 ^ d * 2 ^ z := by ring
  have size : (blocks.take (2 ^ d * 2 ^ z)).length = 2 ^ d * 2 ^ z := List.length_take_of_le (by omega)
  have buckets : (List.range (2 ^ d)).flatMap (fun i => bucketAt (2 ^ z) blocks (2 ^ d + i)) =
      (blocks.drop (2 ^ d * 2 ^ z)).take (2 ^ d * 2 ^ z) := by
    have len : ((blocks.drop (2 ^ d * 2 ^ z)).take (2 ^ d * 2 ^ z)).length = 2 ^ d * 2 ^ z := by
      rw [List.length_take, List.length_drop]
      omega
    rw [← flatMap_bucketAt len]
    refine List.flatMap_congr fun i hi => ?_
    have fits := bucket_fits (Z := 2 ^ z) (List.mem_range.mp hi)
    rw [bucketAt, bucketAt, List.drop_take, List.drop_drop, List.take_take]
    congr 1
    · omega
    · congr 1
      ring
  have ascending := level_ascending ((List.pairwise_lt_range).imp_of_mem fun {i j} _ hj hij =>
      apart i j hij (List.mem_range.mp hj))
  have perm : ((List.range (2 ^ d)).flatMap fun i =>
      sortBy (bucketAt (2 ^ z) blocks (2 ^ d + i)) treeReadoutGt).Perm
        ((blocks.drop (2 ^ d * 2 ^ z)).take (2 ^ d * 2 ^ z)) := by
    rw [← buckets]
    exact List.Perm.flatMap_left _ fun i _ => sortBy_perm _ _
  rw [mergeLevel]
  simp only at ascending ⊢
  generalize (List.range (2 ^ d)).flatMap (fun i =>
    sortBy (bucketAt (2 ^ z) blocks (2 ^ d + i)) treeReadoutGt) = level at ascending perm ⊢
  have level' := (compactPayload_perm level (compactMarks level)).trans perm
  generalize compactPayload level (compactMarks level) = run at ascending level' ⊢
  have length : run.length = 2 ^ d * 2 ^ z := by
    rw [level'.length_eq, List.length_take, List.length_drop]
    omega
  have merged := mergeSortedBy_ascending treeReadoutGt_spec (x := d + z) (by rw [size, Nat.pow_add])
    (by rw [length, size]) (.inr ⟨d + z, by rw [length, Nat.pow_add]⟩) before ascending
  rw [size] at merged
  refine ⟨_, rfl, (mergeSortedBy_perm _ _ _).trans ?_, merged⟩
  rw [twice, List.take_add]
  exact level'.append_left _

/-- The loop over the depths turns the tree into one ascending run. -/
theorem mergeLevels_spec {z height : Nat} (inside : 2 ^ (height + 1) * 2 ^ z ≤ blocks.length)
    (zero : ∀ b ∈ bucketAt (2 ^ z) blocks 0, b.isReal = false) (levelled : Levelled (2 ^ z) height blocks) :
    ∀ k ≤ height + 1, ∃ front, (List.range k).foldl (mergeLevel (2 ^ z)) blocks =
      front ++ blocks.drop (2 ^ k * 2 ^ z) ∧ front.Perm (blocks.take (2 ^ k * 2 ^ z)) ∧
      front.Pairwise fun a b => treeKey a ≤ treeKey b := by
  intro k
  induction k with
  | zero =>
    refine fun _ => ⟨blocks.take (2 ^ 0 * 2 ^ z), (List.take_append_drop _ _).symm, .refl _, ?_⟩
    refine ascending_dummies fun b hb => zero b ?_
    rwa [bucketAt, Nat.zero_mul, List.drop_zero, ← Nat.one_mul (2 ^ z)]
  | succ k ih =>
    intro hk
    obtain ⟨front, run, perm, ascending⟩ := ih (by omega)
    have room : 2 ^ (k + 1) * 2 ^ z ≤ blocks.length :=
      (Nat.mul_le_mul_right _ (Nat.pow_le_pow_right Nat.two_pos hk)).trans inside
    have grows : 2 ^ k * 2 ^ z ≤ 2 ^ (k + 1) * 2 ^ z :=
      Nat.mul_le_mul_right _ (Nat.pow_le_pow_right Nat.two_pos (Nat.le_succ k))
    have size : front.length = 2 ^ k * 2 ^ z := by
      rw [perm.length_eq, List.length_take_of_le (grows.trans room)]
    have same : ∀ i, bucketAt (2 ^ z) (front ++ blocks.drop (2 ^ k * 2 ^ z)) (2 ^ k + i) =
        bucketAt (2 ^ z) blocks (2 ^ k + i) := fun i => by
      have whole := List.take_append_drop (2 ^ k * 2 ^ z) blocks
      rw [bucketAt_append_right size]
      conv_rhs => rw [← whole, bucketAt_append_right (List.length_take_of_le (grows.trans room))]
    have wide : 2 ^ (k + 1) * 2 ^ z ≤ (front ++ blocks.drop (2 ^ k * 2 ^ z)).length := by
      rw [List.length_append, size, List.length_drop]
      omega
    obtain ⟨front', run', perm', ascending'⟩ := mergeLevel_spec wide
      (by rw [List.take_left' size]; exact ascending)
      (by simp only [same]; exact levelled k (by omega))
    refine ⟨front', ?_, ?_, ascending'⟩
    · rw [List.range_succ, List.foldl_append, run, List.foldl_cons, List.foldl_nil, run', List.drop_append,
        List.drop_eq_nil_of_le (size.le.trans grows), List.nil_append, List.drop_drop, size,
        Nat.add_sub_cancel' grows]
    · refine perm'.trans ?_
      rw [List.take_append, List.take_of_length_le (size.le.trans grows), size]
      refine (perm.append_right _).trans (.of_eq ?_)
      conv_rhs => rw [← Nat.add_sub_cancel' grows, List.take_add]

variable [Add V] [Inhabited V]

/-- The tree-aware network leaves one block for each payload, in the general case and in the fallback. -/
theorem obliviousTreeReadout_spec {z height overflowLen : Nat}
    (length : blocks.length = 2 ^ (height + 1) * 2 ^ z + overflowLen)
    (zero : ∀ b ∈ bucketAt (2 ^ z) blocks 0, b.isReal = false) (levelled : Levelled (2 ^ z) height blocks)
    (tags : TagsAgree (reals blocks)) :
    Exported blocks (obliviousTreeReadout (2 ^ z) blocks overflowLen height) := by
  rw [obliviousTreeReadout]
  split
  · exact (obliviousReadout_spec blocks).1
  rename_i network
  simp only [ne_eq, not_or, not_not, gt_iff_lt, not_lt] at network
  obtain ⟨pow, short⟩ := network
  obtain ⟨front, run, perm, ascending⟩ := mergeLevels_spec (by omega) zero levelled (height + 1) (le_refl _)
  have size : front.length = 2 ^ (height + 1) * 2 ^ z := by
    rw [perm.length_eq, List.length_take_of_le (by omega)]
  have tail := sortBy_perm (blocks.drop (2 ^ (height + 1) * 2 ^ z)) treeReadoutGt
  have tailLength := tail.length_eq
  rw [List.length_drop, length, Nat.add_sub_cancel_left] at tailLength
  have merged := mergeSortedBy_ascending treeReadoutGt_spec (x := height + 1 + z) (by rw [size, ← Nat.pow_add])
    (by rw [tailLength, size]; exact short) (.inr ⟨_, tailLength.trans pow⟩) ascending
    (sortBy_ascending treeReadoutGt_spec (blocks.drop (2 ^ (height + 1) * 2 ^ z)))
  have whole : (mergeSortedBy (front ++ sortBy (blocks.drop (2 ^ (height + 1) * 2 ^ z)) treeReadoutGt)
      front.length treeReadoutGt).Perm blocks := by
    refine (mergeSortedBy_perm _ _ _).trans ((perm.append tail).trans (.of_eq ?_))
    exact List.take_append_drop _ _
  simp only [run, List.take_left' size, List.drop_left' size]
  rw [← size]
  rw [size] at merged whole ⊢
  generalize mergeSortedBy (front ++ sortBy (blocks.drop (2 ^ (height + 1) * 2 ^ z)) treeReadoutGt)
    (2 ^ (height + 1) * 2 ^ z) treeReadoutGt = sorted at merged whole ⊢
  have grouped : Grouped sorted := grouped_of_key merged treeKey_faithful fun a ha c hc pay => by
    have ha' := (reals_perm whole).mem_iff.mp ha
    have hc' := (reals_perm whole).mem_iff.mp hc
    rw [treeKey, treeKey, if_pos (mem_reals.mp ha).2, if_pos (mem_reals.mp hc).2, treePlace, treePlace, pay,
      tags c hc' a ha' pay]
  refine ⟨?_, fun b hb => known_of_reduced whole hb, reduceEqualRuns_nodup grouped, fun f p => ?_⟩
  · rw [reduceEqualRuns_length, whole.length_eq]
  · rw [reduceEqualRuns_mass, mass_perm p whole]

end Levels

namespace ObliviousHistogram
variable {h : ObliviousHistogram Z K A S V}

/-- A bucket on its tags' paths lies in tree order before its right neighbours. -/
theorem treeKey_le_of_path {d i j : Nat} (hij : i < j) {a b : OramBlock K V} (ra : a.isReal = true)
    (rb : b.isReal = true) (ha : toLeaf a.tag d = 2 ^ d + i) (hb : toLeaf b.tag d = 2 ^ d + j) :
    treeKey a ≤ treeKey b := by
  rw [toLeaf_eq] at ha hb
  have order : (treeOrder a.tag).toNat < (treeOrder b.tag).toNat := by
    have la := a.tag.toNat_lt
    have lb := b.tag.toNat_lt
    have apart : (routingBits a.tag).toNat < (routingBits b.tag).toNat := by
      have prefixes : (2 ^ 31 + a.tag.toNat % 2 ^ 31) / 2 ^ (31 - d) <
          (2 ^ 31 + b.tag.toNat % 2 ^ 31) / 2 ^ (31 - d) := by
        rw [ha, hb]
        exact Nat.add_lt_add_left hij _
      rw [routingBits_toNat, routingBits_toNat]
      exact Nat.lt_of_add_lt_add_left (Nat.lt_of_div_lt_div prefixes)
    rw [treeOrder_toNat, treeOrder_toNat]
    omega
  rw [treeKey, treeKey, if_pos ra, if_pos rb, WithTop.coe_le_coe]
  exact (Prod.Lex.toLex_le_toLex).mpr (.inl order)

theorem OnPath.levelled (shape : h.Shape) (onPath : h.OnPath) (rest : List (OramBlock K V)) :
    Levelled Z h.height (h.physicalMemory ++ rest) := by
  intro d hd i j hij hj a ha b hb
  have node : ∀ i < 2 ^ d, bucketAt Z (h.physicalMemory ++ rest) (2 ^ d + i) =
      bucketAt Z h.physicalMemory (2 ^ d + i) ∧ 2 ^ d + i < 2 ^ (h.height + 1) := fun i hi => by
    have inside : 2 ^ d + i < 2 ^ (h.height + 1) :=
      (show 2 ^ d + i < 2 ^ (d + 1) by rw [Nat.pow_succ]; omega).trans_le
        (Nat.pow_le_pow_right Nat.two_pos (Nat.succ_le_succ hd))
    exact ⟨bucketAt_append (shape.memory ▸ bucket_fits inside) rest, inside⟩
  have place : ∀ i < 2 ^ d, ∀ a ∈ reals (bucketAt Z (h.physicalMemory ++ rest) (2 ^ d + i)),
      a.isReal = true ∧ toLeaf a.tag d = 2 ^ d + i := fun i hi a ha => by
    obtain ⟨same, inside⟩ := node i hi
    rw [same] at ha
    have pos := Nat.two_pow_pos d
    have high : 2 ^ d + i < 2 ^ (d + 1) := by
      rw [Nat.pow_succ]
      omega
    have here := onPath (2 ^ d + i) (Nat.add_pos_left pos i) inside a ha
    rw [log2_of_bounds (Nat.le_add_right _ _) high] at here
    exact ⟨(mem_reals.mp ha).2, here⟩
  obtain ⟨ra, ha⟩ := place i (hij.trans hj) a ha
  obtain ⟨rb, hb⟩ := place j hj b hb
  exact treeKey_le_of_path hij ra rb ha hb

/-- The real blocks of all slots are the contents. -/
theorem reals_slots (shape : h.Shape) : reals (h.physicalMemory ++ h.stash.overflowSlots) = h.contents := by
  rw [reals_append, contents, ObliviousHistogram.overflow]
  congr 1
  conv_lhs => rw [← flatMap_bucketAt shape.memory, reals_flatMap]
  rfl

theorem slots_length (shape : h.Shape) : (h.physicalMemory ++ h.stash.overflowSlots).length =
    2 ^ (h.height + 1) * Z + S ∧ h.stash.blocks.length - h.stash.pathSize = S := by
  have slots := shape.slots
  rw [List.length_append, shape.memory, overflowSlots, List.length_drop, slots]
  omega

end ObliviousHistogram
end Roga
