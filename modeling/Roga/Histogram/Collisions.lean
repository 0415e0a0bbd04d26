import Roga.Histogram.Totals

/-! Merging when different payloads may share a tag. The sort key leaves the
payload out, so copies of one payload can stay apart around a block of another. -/
namespace Roga
open Ct Reals ObliviousStash ObliviousHistogram
variable {Z K S : Nat} {V : Type}

/-- Blocks with one payload have one tag. -/
def EqualTags (blocks : List (OramBlock K V)) : Prop :=
  ∀ a ∈ reals blocks, ∀ b ∈ reals blocks, a.payload = b.payload → a.tag = b.tag

/-- A payload with several blocks shares its tag, bit 31 aside, with no other payload. -/
def Unshared (blocks : List (OramBlock K V)) : Prop :=
  ∀ a ∈ reals blocks, 2 ≤ ((reals blocks).countP fun c => c.payload = a.payload) →
    ∀ b ∈ reals blocks, identityBits b.tag = identityBits a.tag → b.payload = a.payload

/-- The sum of the values of a payload's blocks. -/
def valuesOf [AddCommSemigroup V] (p : Vector UInt8 K) (blocks : List (OramBlock K V)) : WithZero V :=
  sumOf (((reals blocks).filter fun b => b.payload = p).map OramBlock.value)

/-- One block with the whole sum is left of `p`, and reading `p` returns and removes it. -/
structure MergesExactly [AddCommSemigroup V] [Inhabited V] (stash : ObliviousStash Z K S V) (position : TreeIndex)
    (p : Vector UInt8 K) : Prop where
  once : ((reals (stash.mergeAccumulateForPath position).blocks).countP fun b => b.payload = p) ≤ 1
  value : ∀ b ∈ reals (stash.mergeAccumulateForPath position).blocks, b.payload = p →
    (b.value : WithZero V) = valuesOf p stash.blocks
  read : ((stash.mergeAccumulateForPath position).readAndRemove p).1 = readValue (valuesOf p stash.blocks)
  removed : reals ((stash.mergeAccumulateForPath position).readAndRemove p).2.2.blocks =
    (reals (stash.mergeAccumulateForPath position).blocks).filter fun b => b.payload ≠ p
  others : ∀ q ≠ p, valuesOf q ((stash.mergeAccumulateForPath position).readAndRemove p).2.2.blocks =
    valuesOf q stash.blocks

section Unshared

theorem unshared_perm {blocks blocks' : List (OramBlock K V)} (perm : blocks'.Perm blocks)
    (unshared : Unshared blocks) : Unshared blocks' := by
  have same := reals_perm perm
  intro a ha two b hb bits
  rw [same.countP_eq] at two
  exact unshared a (same.mem_iff.mp ha) two b (same.mem_iff.mp hb) bits

theorem equalTags_perm {blocks blocks' : List (OramBlock K V)} (perm : blocks'.Perm blocks)
    (equalTags : EqualTags blocks) : EqualTags blocks' := fun a ha b hb =>
  equalTags a ((reals_perm perm).mem_iff.mp ha) b ((reals_perm perm).mem_iff.mp hb)

/-- In key order, only copies lie between two copies. -/
theorem grouped_of_unshared {blocks : List (OramBlock K V)} (equalTags : EqualTags blocks) (unshared : Unshared blocks)
    {position : TreeIndex} {height : Nat} (hh : height ≤ 31)
    (ascending : blocks.Pairwise fun a b => pathRankKey a.tag position height ≤ pathRankKey b.tag position height) :
    Grouped blocks := by
  refine grouped_of_between fun a b c inside ha hc pay => ?_
  have order := ascending.sublist inside
  simp only [List.pairwise_cons, List.mem_cons, List.not_mem_nil, or_false, forall_eq_or_imp, forall_eq] at order
  have ra : a ∈ reals blocks := mem_reals.mpr ⟨inside.subset (.head _), ha⟩
  have rc : c ∈ reals blocks := mem_reals.mpr ⟨inside.subset (.tail _ (.tail _ (.head _))), hc⟩
  have keys := equalTags a ra c rc pay.symm
  have same : pathRankKey b.tag position height = pathRankKey a.tag position height :=
    UInt64.le_antisymm (keys ▸ order.2.1) order.1.1
  have hb : b.isReal = true := isReal_of_pathRankKey hh ha same
  refine ⟨hb, unshared a ra ?_ b (mem_reals.mpr ⟨inside.subset (.tail _ (.head _)), hb⟩)
    ((pathRankKey_inj (OramBlock.isReal_iff.mp hb) (OramBlock.isReal_iff.mp ha) hh).mp same)⟩
  have pair : [a, c].Sublist (reals blocks) := by
    have kept := ((List.sublist_cons_self b [c]).cons_cons a |>.trans inside).filter OramBlock.isReal
    rwa [List.filter_cons_of_pos ha, List.filter_cons_of_pos hc, List.filter_nil] at kept
  have two := pair.countP_le (p := fun d => d.payload = a.payload)
  rwa [List.countP_cons_of_pos (by simp), List.countP_cons_of_pos (by simpa using pay)] at two

variable [AddCommSemigroup V] [Inhabited V]

omit [Inhabited V] in
theorem valuesOf_eq (p : Vector UInt8 K) (blocks : List (OramBlock K V)) :
    valuesOf p blocks = (mass (AddHom.id V) p blocks).values := (values_mass p blocks).symm

/-- Unshared tags are enough, in any slot order. -/
theorem mergesExactly_of_unshared {stash : ObliviousStash Z K S V} (equalTags : EqualTags stash.blocks)
    (unshared : Unshared stash.blocks) {position : TreeIndex} (hh : ctDepth position ≤ 31) (p : Vector UInt8 K) :
    MergesExactly stash position p := by
  obtain ⟨sorted, perm, ascending, run⟩ := sortReduce_eq stash.blocks
    fun block => pathRankKey block.tag position (ctDepth position)
  have merged : (stash.mergeAccumulateForPath position).blocks = reduceEqualRuns sorted := run
  have nodup := reduceEqualRuns_nodup (grouped_of_unshared (equalTags_perm perm equalTags)
    (unshared_perm perm unshared) hh ascending)
  have masses : ∀ q, mass (AddHom.id V) q (reduceEqualRuns sorted) = mass (AddHom.id V) q stash.blocks := fun q => by
    rw [reduceEqualRuns_mass, mass_perm q perm]
  have removed : reals ((stash.mergeAccumulateForPath position).readAndRemove p).2.2.blocks =
      (reals (stash.mergeAccumulateForPath position).blocks).filter fun b => b.payload ≠ p :=
    (congrArg reals (readAndRemoveLoop_blocks p _ _ _)).trans (reals_removed p _)
  rw [← merged] at nodup masses
  refine ⟨?_, fun b hb same => ?_, ?_, removed, fun q other => ?_⟩
  · have single := List.nodup_iff_count_le_one.mp nodup p
    simpa only [List.count_eq_countP, List.countP_map, Function.comp_def, beq_eq_decide] using single
  · obtain ⟨hm, hr⟩ := mem_reals.mp hb
    rw [valuesOf_eq, ← masses, mass_of_nodup nodup hm hr same, weight_real hr same]
    rfl
  · rw [valuesOf_eq, ← masses]
    by_cases found : ∃ b ∈ reals (stash.mergeAccumulateForPath position).blocks, b.payload = p
    · obtain ⟨b, hb, same⟩ := found
      obtain ⟨hm, hr⟩ := mem_reals.mp hb
      rw [mass_of_nodup nodup hm hr same, weight_real hr same]
      exact readAndRemoveLoop_found nodup hb same _ _
    · have absent : ∀ b ∈ reals (stash.mergeAccumulateForPath position).blocks, b.payload ≠ p :=
        fun b hb same => found ⟨b, hb, same⟩
      rw [mass_eq_zero.mpr fun b hb hr => absent b (mem_reals.mpr ⟨hb, hr⟩)]
      exact readAndRemoveLoop_none absent _ _
  · rw [valuesOf_eq, valuesOf_eq, ← mass_reals, removed, mass_filter_ne, if_neg other, mass_reals, masses]

end Unshared

section Shared
variable {blocks : List (OramBlock K V)}

/-- Two copies of a payload and a block of another one that shares their tag. -/
theorem exists_interleaving (shared : ¬ Unshared blocks) : ∃ a b c rest, blocks.Perm (a :: b :: c :: rest) ∧
    a.isReal = true ∧ b.isReal = true ∧ c.isReal = true ∧ c.payload = a.payload ∧ b.payload ≠ a.payload ∧
      ∃ d ∈ reals blocks, d.payload = a.payload ∧ identityBits b.tag = identityBits d.tag := by
  simp only [Unshared, not_forall] at shared
  obtain ⟨d, hd, two, b, hb, bits, other⟩ := shared
  rw [List.countP_eq_length_filter] at two
  obtain ⟨a, c, tail, copies⟩ : ∃ a c tail, (reals blocks).filter (fun x => x.payload = d.payload) = a :: c :: tail := by
    generalize (reals blocks).filter (fun x => x.payload = d.payload) = copies at two ⊢
    rcases copies with _ | ⟨a, _ | ⟨c, tail⟩⟩
    · simp at two
    · simp at two
    · exact ⟨a, c, tail, rfl⟩
  have copy : ∀ x ∈ [a, c], x.isReal = true ∧ x.payload = d.payload := fun x hx => by
    have here : x ∈ (reals blocks).filter fun x => x.payload = d.payload := by
      rw [copies]
      simp only [List.mem_cons, List.not_mem_nil, or_false] at hx
      rcases hx with rfl | rfl
      · exact .head _
      · exact .tail _ (.head _)
    obtain ⟨inside, same⟩ := List.mem_filter.mp here
    exact ⟨(mem_reals.mp inside).2, by simpa using same⟩
  have apart := List.filter_append_perm (fun x => decide (x.payload = d.payload)) (reals blocks)
  have rest : [b].Sublist ((reals blocks).filter fun x => !decide (x.payload = d.payload)) :=
    List.singleton_sublist.mpr (List.mem_filter.mpr ⟨hb, by simpa using other⟩)
  have front : [a, c].Sublist ((reals blocks).filter fun x => x.payload = d.payload) := by
    rw [copies]
    exact ((List.nil_sublist tail).cons_cons c).cons_cons a
  have inside : [a, b, c].Subperm blocks := by
    have swap : [a, b, c].Perm ([a, c] ++ [b]) := .cons a (.swap c b [])
    exact (swap.subperm.trans (front.append rest).subperm).trans (apart.subperm.trans List.filter_sublist.subperm)
  obtain ⟨slots, order, sub⟩ := inside
  obtain ⟨tail, perm⟩ := sub.exists_perm_append
  obtain ⟨ha, hap⟩ := copy a (.head _)
  obtain ⟨hc, hcp⟩ := copy c (.tail _ (.head _))
  exact ⟨a, b, c, tail, perm.trans (order.append_right tail), ha, (mem_reals.mp hb).2, hc, hcp.trans hap.symm, hap ▸ other, d, hd, hap.symm, bits⟩

/-- With a shared tag some order of the same slots is merged wrongly. -/
theorem exists_order_not_exact [AddCommSemigroup V] [Inhabited V] (equalTags : EqualTags blocks)
    (shared : ¬ Unshared blocks) {position : TreeIndex} (hh : ctDepth position ≤ 31) :
    ∃ slots : List (OramBlock K V), slots.Perm blocks ∧ ∃ p, ∀ pathSize,
      ¬ MergesExactly ({ blocks := slots, pathSize } : ObliviousStash Z K S V) position p := by
  obtain ⟨a, b, c, rest, perm, ha, hb, hc, same, other, d, hd, copy, bits⟩ := exists_interleaving shared
  generalize hkey : (fun block : OramBlock K V => pathRankKey block.tag position (ctDepth position)) = key
  have member : ∀ x ∈ [a, b, c], x ∈ blocks := fun x hx => perm.mem_iff.mpr (by
    simp only [List.mem_cons, List.not_mem_nil, or_false] at hx ⊢
    tauto)
  have tagOf : ∀ x ∈ [a, b, c], x.isReal = true → x.payload = d.payload → x.tag = d.tag := fun x hx real pay =>
    equalTags x (mem_reals.mpr ⟨member x hx, real⟩) d hd pay
  have keyA : key a = key d := by
    rw [← hkey]
    simp only [tagOf a (.head _) ha copy.symm]
  have keyC : key c = key d := by
    rw [← hkey]
    simp only [tagOf c (.tail _ (.tail _ (.head _))) hc (same.trans copy.symm)]
  have keyB : key b = key d := by
    rw [← hkey]
    exact (pathRankKey_inj (OramBlock.isReal_iff.mp hb) (OramBlock.isReal_iff.mp (mem_reals.mp hd).2) hh).mpr bits
  have tied : [a, b, c].Pairwise fun x y => decide (key x ≤ key y) = true := by
    simp [keyA, keyB, keyC]
  have sublist : [a, b, c].Sublist (a :: b :: c :: rest) := (((List.nil_sublist rest).cons_cons c).cons_cons b).cons_cons a
  have trans : ∀ x y z : OramBlock K V, decide (key x ≤ key y) = true → decide (key y ≤ key z) = true →
      decide (key x ≤ key z) = true := fun x y z h h' => by
    rw [decide_eq_true_eq] at *
    exact UInt64.le_trans h h'
  have total : ∀ x y : OramBlock K V, (decide (key x ≤ key y) || decide (key y ≤ key x)) = true := fun x y => by
    simpa using UInt64.le_total (key x) (key y)
  have inside := List.sublist_mergeSort trans total tied sublist
  have ascending := List.pairwise_mergeSort trans total (a :: b :: c :: rest)
  have order := (List.mergeSort_perm (a :: b :: c :: rest) fun x y => decide (key x ≤ key y)).trans perm.symm
  generalize (a :: b :: c :: rest).mergeSort (fun x y => decide (key x ≤ key y)) = slots at *
  refine ⟨slots, order, a.payload, fun pathSize exact => ?_⟩
  have merged : (({ blocks := slots, pathSize } : ObliviousStash Z K S V).mergeAccumulateForPath position).blocks =
      reduceEqualRuns slots := by
    rw [mergeAccumulateForPath]
    refine sortReduce_of_sorted (ascending.imp fun {x y} h => ?_)
    rw [decide_eq_true_eq, ← hkey] at h
    exact h
  have one := exact.once
  rw [merged] at one
  have two := two_le_reduceEqualRuns ha other hc same inside
  omega

end Shared

/-- The slots of a stash whose equal payloads carry equal tags merge exactly in every
order if and only if no payload with several blocks shares its tag with another one. -/
theorem mergesExactly_iff [AddCommSemigroup V] [Inhabited V] {blocks : List (OramBlock K V)}
    (equalTags : EqualTags blocks) {position : TreeIndex} (hposition : position < 2 ^ 32) :
    (∀ stash : ObliviousStash Z K S V, stash.blocks.Perm blocks → ∀ p, MergesExactly stash position p) ↔
      Unshared blocks := by
  have hh := ctDepth_le hposition
  constructor
  · intro all
    by_contra shared
    obtain ⟨slots, perm, p, wrong⟩ := exists_order_not_exact (Z := Z) (S := S) equalTags shared hh
    exact wrong 0 (all { blocks := slots, pathSize := 0 } perm p)
  · intro unshared stash perm p
    exact mergesExactly_of_unshared (equalTags_perm perm equalTags) (unshared_perm perm unshared) hh p

/-- Two blocks of `[1]` around one of `[2]`, with the tags given. -/
def around (tag tag' : UInt64) : ObliviousStash 1 1 3 Nat where
  blocks := [⟨tag, 0, 5, .replicate 1 1⟩, ⟨tag', 0, 7, .replicate 1 2⟩, ⟨tag, 0, 6, .replicate 1 1⟩, OramBlock.dummy, OramBlock.dummy]
  pathSize := 2

theorem mergesExactly_iff_distinct : MergesExactly (around 1 2) 2 #v[1] ∧ MergesExactly (around 1 2) 2 #v[2] := by
  have equalTags : EqualTags (around 1 2).blocks := by rw [EqualTags]; decide +kernel
  have unshared : Unshared (around 1 2).blocks := by rw [Unshared]; decide +kernel
  have all := (mergesExactly_iff (Z := 1) (S := 3) equalTags (by decide : 2 < 2 ^ 32)).mpr unshared
  exact ⟨all (around 1 2) (.refl _) _, all (around 1 2) (.refl _) _⟩

theorem interleaved_not_merged : EqualTags (around 1 1).blocks ∧ ¬ MergesExactly (around 1 1) 2 #v[1] := by
  refine ⟨by rw [EqualTags]; decide +kernel, fun exact => ?_⟩
  have sum := exact.read
  revert sum
  decide +kernel

end Roga
