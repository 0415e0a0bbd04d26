import Roga.Histogram.Invariant

/-! Evictions, dummy reads and growth only move, merge and re-place blocks.
Each is a sequence of elementary moves that keep the invariant and every mass;
an insertion or a removal adds one change of contents. -/
namespace Roga
open Ct Reals ObliviousStash
variable {Z K A S : Nat} {V : Type}

namespace ObliviousHistogram
variable {known : UInt64 × Vector UInt8 K → Prop} {h h' h₁ : ObliviousHistogram Z K A S V}

section Bind
variable {ε α β : Type}

theorem bind_ok {x : Except ε α} {f : α → Except ε β} {b : β} (run : x >>= f = .ok b) :
    ∃ a, x = .ok a ∧ f a = .ok b := by
  cases x with
  | error e => exact absurd run (by simp [bind, Except.bind])
  | ok a => exact ⟨a, rfl, run⟩

end Bind

section Leaves

theorem leaf_bounds {height x : Nat} (hx : x < 2 ^ height) :
    2 ^ height ≤ (leafCount height ||| x) ∧ (leafCount height ||| x) < 2 ^ (height + 1) := by
  rw [leafCount, Nat.or_comm, Nat.or_two_pow_eq_add_of_lt hx, Nat.pow_succ]
  omega

theorem evictLeafAt_bounds {height : Nat} (hh : height ≤ 31) (evictCtr : Nat) :
    2 ^ height ≤ evictLeafAt height evictCtr ∧ evictLeafAt height evictCtr < 2 ^ (height + 1) := by
  have width : height + (64 - height) = 64 := by omega
  apply leaf_bounds
  rw [Nat.shiftRight_eq_div_pow, Nat.div_lt_iff_lt_mul (Nat.two_pow_pos _), ← Nat.pow_add, width]
  exact UInt64.toNat_lt _

end Leaves

section Moves
variable [Add V] [Inhabited V]

/-- Elementary moves: other fields, one path access, one doubling of the tree. -/
inductive Reshuffle : ObliviousHistogram Z K A S V → ObliviousHistogram Z K A S V → Prop
  | fields {a b : ObliviousHistogram Z K A S V} (memory : b.physicalMemory = a.physicalMemory)
      (stash : b.stash = a.stash) (height : b.height = a.height) (prf : b.prf = a.prf)
      (trace : a.trace <:+ b.trace) : Reshuffle a b
  | touch {a m b : ObliviousHistogram Z K A S V} (leaf : TreeIndex) (low : 2 ^ a.height ≤ leaf)
      (high : leaf < 2 ^ (a.height + 1)) (memory : m.physicalMemory = a.physicalMemory)
      (stash : m.stash = a.mergedStash leaf) (height : m.height = a.height) (prf : m.prf = a.prf)
      (trace : a.trace <:+ m.trace) (run : m.writePath leaf = .ok b) : Reshuffle a b
  | grow {a b : ObliviousHistogram Z K A S V} (run : a.growPhysicalStorage = .ok b) : Reshuffle a b
  | trans {a m b : ObliviousHistogram Z K A S V} (first : Reshuffle a m) (second : Reshuffle m b) :
      Reshuffle a b

omit [Add V] in
/-- Doubling the tree: the old nodes keep their place and the new ones are empty. -/
theorem growPhysicalStorage_spec (run : h.growPhysicalStorage = .ok h') :
    h.height < 31 ∧ h'.height = h.height + 1 ∧ h'.prf = h.prf ∧
      h'.epoch = saturatingSucc h.epoch ∧ h'.sweepEnd = h.evictCtr + leafCount h.height ∧
      h'.evictCtr = h.evictCtr ∧ h'.appendCtr = h.appendCtr ∧ h'.autoResize = h.autoResize ∧
      h'.trace = h.trace ∧ h'.stash = h.stash.growExtendPathBuffer ∧
      h'.physicalMemory = h.physicalMemory ++ List.replicate h.physicalMemory.length OramBlock.dummy := by
  rw [growPhysicalStorage] at run
  split at run
  · rename_i room
    simp only [Except.ok.injEq] at run
    subst run
    refine ⟨room, rfl, rfl, rfl, rfl, rfl, rfl, rfl, rfl, rfl, ?_⟩
    simp only [Nat.mul_two, Nat.add_sub_cancel]
  · simp at run

omit [Add V] in
theorem growPhysicalStorage_bucket (shape : h.Shape) (run : h.growPhysicalStorage = .ok h') (n : Nat) :
    bucketAt Z h'.physicalMemory n = bucketAt Z h.physicalMemory n ∧ n < 2 ^ (h.height + 1) ∨
      (∀ b ∈ bucketAt Z h'.physicalMemory n, b.isReal = false) ∧ 2 ^ (h.height + 1) ≤ n := by
  obtain ⟨-, -, -, -, -, -, -, -, -, -, memory⟩ := growPhysicalStorage_spec run
  rw [memory]
  rcases Nat.lt_or_ge n (2 ^ (h.height + 1)) with old | new
  · exact .inl ⟨bucketAt_append (shape.memory ▸ bucket_fits old) _, old⟩
  · obtain ⟨i, rfl⟩ := Nat.exists_eq_add_of_le new
    rw [bucketAt_append_right shape.memory]
    refine .inr ⟨fun b hb => ?_, new⟩
    rw [List.eq_of_mem_replicate (List.mem_of_mem_drop (List.mem_of_mem_take hb))]
    rfl

omit [Add V] in
theorem growPhysicalStorage_overflow (shape : h.Shape) (run : h.growPhysicalStorage = .ok h') :
    h'.overflow = h.overflow := by
  obtain ⟨-, -, -, -, -, -, -, -, -, stash, -⟩ := growPhysicalStorage_spec run
  rw [ObliviousHistogram.overflow, ObliviousHistogram.overflow, stash, overflowSlots, growExtendPathBuffer]
  congr 1
  refine List.drop_left' ?_
  rw [List.length_append, List.length_replicate, List.length_take_of_le (by rw [shape.slots]; omega)]

omit [Add V] in
theorem growPhysicalStorage_contents (shape : h.Shape) (run : h.growPhysicalStorage = .ok h') :
    (∀ n, h'.bucket n = h.bucket n) ∧ h'.contents = h.contents := by
  have buckets : ∀ n, h'.bucket n = h.bucket n := fun n => by
    rcases growPhysicalStorage_bucket shape run n with ⟨same, -⟩ | ⟨empty, out⟩
    · rw [ObliviousHistogram.bucket, same]
      rfl
    · rw [bucket_out_of_range shape out, ObliviousHistogram.bucket, reals_eq_nil.mpr empty]
  refine ⟨buckets, ?_⟩
  obtain ⟨-, height, -⟩ := growPhysicalStorage_spec run
  have overflow := growPhysicalStorage_overflow shape run
  have twice : 2 ^ (h.height + 1 + 1) = 2 ^ (h.height + 1) + 2 ^ (h.height + 1) := by
    rw [Nat.pow_succ]
    omega
  rw [ObliviousHistogram.contents, ObliviousHistogram.contents, overflow, height, twice,
    List.range_add, List.flatMap_append, List.flatMap_congr fun n _ => buckets n]
  congr 1
  refine (List.append_right_eq_self).mpr (List.flatMap_eq_nil_iff.mpr fun n hn => ?_)
  obtain ⟨i, -, rfl⟩ := List.mem_map.mp hn
  rw [buckets, bucket_out_of_range shape (Nat.le_add_right _ _)]

omit [Add V] in
theorem Inv.grow (inv : h.Inv known) (run : h.growPhysicalStorage = .ok h') : h'.Inv known := by
  obtain ⟨room, height, -, -, -, -, -, -, -, stash, memory⟩ := growPhysicalStorage_spec run
  obtain ⟨buckets, contents⟩ := growPhysicalStorage_contents inv.shape run
  have shape := inv.shape
  have fits : h.stash.pathSize ≤ h.stash.blocks.length := by
    rw [shape.slots]
    omega
  refine ⟨⟨shape.bucket_pos, ?_, ?_, ?_, ?_, ?_, ?_, ?_⟩, fun n pos _ b hb => ?_,
    contents ▸ inv.inserted, fun identified n => buckets n ▸ inv.distinct identified n⟩
  · rw [height]
    exact Nat.succ_pos _
  · rw [height]
    exact room
  · rw [memory, List.length_append, List.length_replicate, height, Nat.pow_succ, shape.memory]
    ring
  · rw [stash, growExtendPathBuffer, height, shape.path]
    ring
  · rw [stash, growExtendPathBuffer, List.length_append, List.length_append, List.length_replicate,
      List.length_take_of_le fits, List.length_drop, shape.slots, Nat.add_sub_cancel_left]
  · rcases growPhysicalStorage_bucket shape run 0 with ⟨same, -⟩ | ⟨empty, -⟩
    · exact same ▸ shape.bucket_zero
    · exact empty
  · intro b hb
    rw [stash, growExtendPathBuffer] at hb
    rw [List.take_left' (by rw [List.length_append, List.length_replicate,
      List.length_take_of_le fits])] at hb
    rcases List.mem_append.mp hb with hb | hb
    · exact shape.path_region b hb
    · rw [List.eq_of_mem_replicate hb]
      rfl
  · rw [buckets] at hb
    refine inv.onPath n pos ?_ b hb
    by_contra out
    rw [bucket_out_of_range shape (Nat.le_of_not_lt out)] at hb
    exact List.not_mem_nil hb

theorem Reshuffle.inv (moves : Reshuffle h h') (inv : h.Inv known) : h'.Inv known := by
  induction moves with
  | fields memory stash height _ _ => exact inv.congr memory stash height
  | touch leaf low high memory stash height _ _ run => exact (inv.touch low high memory stash height run).1
  | grow run => exact inv.grow run
  | trans _ _ ih₁ ih₂ => exact ih₂ (ih₁ inv)

theorem Reshuffle.prf (moves : Reshuffle h h') : h'.prf = h.prf := by
  induction moves with
  | fields _ _ _ prf _ => exact prf
  | touch leaf _ _ _ _ _ prf _ run =>
    obtain ⟨-, fields⟩ := writePath_fields run
    exact (congrArg ObliviousHistogram.prf fields).trans prf
  | grow run => exact (growPhysicalStorage_spec run).2.2.1
  | trans _ _ ih₁ ih₂ => exact ih₂.trans ih₁

/-- What has happened stays recorded. -/
theorem Reshuffle.trace (moves : Reshuffle h h') : h.trace <:+ h'.trace := by
  induction moves with
  | fields _ _ _ _ trace => exact trace
  | touch leaf _ _ _ _ _ _ trace run =>
    obtain ⟨-, fields⟩ := writePath_fields run
    rw [fields]
    exact trace
  | grow run =>
    obtain ⟨-, -, -, -, -, -, -, -, trace, -⟩ := growPhysicalStorage_spec run
    exact trace ▸ List.suffix_refl _
  | trans _ _ ih₁ ih₂ => exact ih₁.trans ih₂

end Moves

theorem Reshuffle.mass_eq {M : Type} [Add V] [AddCommSemigroup M] {f : V →ₙ+ M} [Inhabited V] (moves : Reshuffle h h') (inv : h.Inv known)
    (p : Vector UInt8 K) : mass f p h'.contents = mass f p h.contents := by
  induction moves with
  | fields memory stash height _ _ => rw [contents_congr memory stash height]
  | touch leaf low high memory stash height _ _ run =>
    exact Accessed.mass_eq low high inv.shape p (inv.touch low high memory stash height run).2
  | grow run => rw [(growPhysicalStorage_contents inv.shape run).2]
  | trans first _ ih₁ ih₂ => exact (ih₂ (first.inv inv)).trans (ih₁ inv)

end ObliviousHistogram
end Roga
