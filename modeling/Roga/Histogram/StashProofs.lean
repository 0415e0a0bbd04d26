import Roga.Histogram.Stash
import Roga.Oblivious.CompactionProofs

/-! Inserting into the overflow region and removing from the whole stash. -/
namespace Roga
open Ct Reals
variable {Z K S : Nat} {V : Type}

namespace ObliviousStash

theorem withOverflow_overflowSlots {stash : ObliviousStash Z K S V} (slots : List (OramBlock K V))
    (fits : stash.pathSize ≤ stash.blocks.length) : (stash.withOverflow slots).overflowSlots = slots := by
  rw [overflowSlots, withOverflow]
  exact List.drop_left' (List.length_take_of_le fits)

theorem withOverflow_take {stash : ObliviousStash Z K S V} (slots : List (OramBlock K V))
    (fits : stash.pathSize ≤ stash.blocks.length) :
    (stash.withOverflow slots).blocks.take stash.pathSize = stash.blocks.take stash.pathSize := by
  rw [withOverflow]
  exact List.take_left' (List.length_take_of_le fits)

theorem withOverflow_length {stash : ObliviousStash Z K S V} {slots : List (OramBlock K V)}
    (fits : stash.pathSize ≤ stash.blocks.length) (len : slots.length = stash.overflowSlots.length) :
    (stash.withOverflow slots).blocks.length = stash.blocks.length := by
  rw [overflowSlots, List.length_drop] at len
  rw [withOverflow, List.length_append, List.length_take, len]
  omega

section Insert
variable (tag : UInt64) (epoch : UInt8) (value : V) (payload : Vector UInt8 K)

theorem insertLoop_placed (slots : List (OramBlock K V)) :
    insertLoop tag epoch value payload true.toUInt8 slots = (true.toUInt8, slots) := by
  induction slots with
  | nil => rfl
  | cons b slots ih =>
    have real : ctIsReal b.tag = b.isReal.toUInt8 := OramBlock.ctIsReal_isReal b
    simp only [insertLoop, real, ctNot_toUInt8, toUInt8_and, toUInt8_or, Bool.not_true, Bool.and_false,
      Bool.or_false, OramBlock.assignIf_toUInt8, Bool.false_eq_true, if_false, ih]

/-- The new block takes the first dummy slot, if there is one. -/
theorem insertLoop_free (slots : List (OramBlock K V)) :
    (insertLoop tag epoch value payload false.toUInt8 slots).2.length = slots.length ∧
      ((insertLoop tag epoch value payload false.toUInt8 slots).1 ≠ 0 →
        (reals (insertLoop tag epoch value payload false.toUInt8 slots).2).Perm
          (reals [{ tag, epoch, value, payload }] ++ reals slots)) := by
  induction slots with
  | nil => exact ⟨rfl, fun h => absurd rfl h⟩
  | cons b slots ih =>
    have real : ctIsReal b.tag = b.isReal.toUInt8 := OramBlock.ctIsReal_isReal b
    simp only [insertLoop, real, ctNot_toUInt8, toUInt8_and, toUInt8_or, Bool.not_false, Bool.and_true,
      Bool.false_or, OramBlock.assignIf_toUInt8]
    cases hb : b.isReal with
    | false =>
      simp only [Bool.not_false, insertLoop_placed, if_true, List.length_cons, true_and]
      intro _
      rw [reals_cons_dummy hb, ← reals_append]
      exact .refl _
    | true =>
      simp only [Bool.not_true, Bool.false_eq_true, if_false, List.length_cons, ih.1, true_and]
      intro placed
      rw [reals_cons_real hb, reals_cons_real hb]
      exact ((ih.2 placed).cons b).trans List.perm_middle.symm

theorem insertLoop_placed_of_dummy {slots : List (OramBlock K V)} (free : ∃ b ∈ slots, b.isReal = false) :
    (insertLoop tag epoch value payload false.toUInt8 slots).1 ≠ 0 := by
  induction slots with
  | nil => simp at free
  | cons b slots ih =>
    have real : ctIsReal b.tag = b.isReal.toUInt8 := OramBlock.ctIsReal_isReal b
    simp only [insertLoop, real, ctNot_toUInt8, toUInt8_and, toUInt8_or, Bool.not_false, Bool.and_true,
      Bool.false_or]
    cases hb : b.isReal with
    | false =>
      simp only [Bool.not_false, insertLoop_placed]
      decide
    | true =>
      obtain ⟨c, hc, hd⟩ := free
      rcases List.mem_cons.mp hc with rfl | hc
      · simp [hb] at hd
      · exact ih ⟨c, hc, hd⟩

/-- A free overflow slot is enough for `insert`. -/
theorem insert_ok {stash : ObliviousStash Z K S V} (free : ∃ b ∈ stash.overflowSlots, b.isReal = false) :
    ∃ stash', stash.insert tag epoch value payload = .ok stash' :=
  ⟨_, if_neg (insertLoop_placed_of_dummy tag epoch value payload free)⟩

/-- `insert` adds one block to the overflow region and leaves the path region alone. -/
theorem insert_spec {stash stash' : ObliviousStash Z K S V}
    (fits : stash.pathSize ≤ stash.blocks.length)
    (run : stash.insert tag epoch value payload = .ok stash') :
    stash'.pathSize = stash.pathSize ∧ stash'.blocks.length = stash.blocks.length ∧
      stash'.blocks.take stash.pathSize = stash.blocks.take stash.pathSize ∧
      (reals stash'.overflowSlots).Perm
        (reals [{ tag, epoch, value, payload }] ++ reals stash.overflowSlots) := by
  rw [insert] at run
  obtain ⟨len, added⟩ := insertLoop_free tag epoch value payload stash.overflowSlots
  rw [show (0 : UInt8) = false.toUInt8 from rfl] at run
  split at run
  · simp at run
  · rename_i placed
    simp only [Except.ok.injEq] at run
    subst run
    refine ⟨rfl, withOverflow_length fits len, withOverflow_take _ fits, ?_⟩
    rw [withOverflow_overflowSlots _ fits]
    exact added placed

end Insert

section Batch

variable [Inhabited V]

/-- The slot a masked update is written to. -/
def updateBlock (u : MaskedUpdate K V) : OramBlock K V :=
  OramBlock.dummy.assignIf u.1 u.2.1 u.2.2.1 u.2.2.2.1 (u.2.2.2.2 &&& 1)

theorem and_one_toUInt8 (c : UInt8) : c &&& 1 = (c &&& 1 != 0).toUInt8 := by
  have all : ∀ v : BitVec 8, UInt8.ofBitVec v &&& 1 = (UInt8.ofBitVec v &&& 1 != 0).toUInt8 := by
    decide +kernel
  exact all c.toBitVec

theorem updateBlock_eq (u : MaskedUpdate K V) : updateBlock u =
    if u.2.2.2.2 &&& 1 != 0 then { tag := u.1, epoch := u.2.1, value := u.2.2.1, payload := u.2.2.2.1 }
    else OramBlock.dummy := by
  rw [updateBlock, and_one_toUInt8, OramBlock.assignIf_toUInt8]
  congr 2
  rw [toUInt8_bne_zero]

/-- `insert_batch` keeps as many compacted slots as the overflow region has, if its real blocks fit. -/
theorem insertBatch_eq (stash : ObliviousStash Z K S V) (updates : List (MaskedUpdate K V)) :
    ∃ rest, reals rest = [] ∧ stash.overflowSlots.length ≤
        (reals (stash.overflowSlots ++ updates.map updateBlock) ++ rest).length ∧
      stash.insertBatch updates =
        if stash.overflowSlots.length < (reals (stash.overflowSlots ++ updates.map updateBlock)).length then
          .error (.batchInsertOverflow (reals (stash.overflowSlots ++ updates.map updateBlock)).length
            stash.overflowSlots.length)
        else .ok (stash.withOverflow ((reals (stash.overflowSlots ++ updates.map updateBlock) ++ rest).take
          stash.overflowSlots.length)) := by
  have slots : stash.blocks.length - stash.pathSize = stash.overflowSlots.length := List.length_drop.symm
  obtain ⟨rest, compacted, dummies⟩ := compactPayload_reals (stash.overflowSlots ++ updates.map updateBlock)
  have size := congrArg List.length compacted
  rw [compactPayload_length, List.length_append, List.length_append, List.length_map] at size
  have total := compactMarks_last (stash.overflowSlots ++ updates.map updateBlock)
  rw [List.length_append, List.length_map] at total
  refine ⟨rest.map fun b : OramBlock K V => { b with tag := 0 }, ?_, ?_, ?_⟩
  · refine reals_eq_nil.mpr fun b hb => ?_
    obtain ⟨a, -, rfl⟩ := List.mem_map.mp hb
    rfl
  · rw [List.length_append, List.length_map]
    omega
  · have written : (updates.map fun u => OramBlock.dummy.assignIf u.1 u.2.1 u.2.2.1 u.2.2.2.1 (u.2.2.2.2 &&& 1)) =
        updates.map updateBlock := rfl
    rw [insertBatch, slots, written]
    simp only [total, compacted, dummyPast_append]

/-- `insert_batch` appends the unmasked updates to the overflow region. -/
theorem insertBatch_spec {stash stash' : ObliviousStash Z K S V} {updates : List (MaskedUpdate K V)}
    (fits : stash.pathSize ≤ stash.blocks.length) (run : stash.insertBatch updates = .ok stash') :
    stash'.pathSize = stash.pathSize ∧ stash'.blocks.length = stash.blocks.length ∧
      stash'.blocks.take stash.pathSize = stash.blocks.take stash.pathSize ∧
      reals stash'.overflowSlots = reals stash.overflowSlots ++ reals (updates.map updateBlock) := by
  obtain ⟨rest, dummies, enough, batch⟩ := insertBatch_eq stash updates
  rw [batch] at run
  split at run
  · simp at run
  rename_i room
  cases run
  have tail : ∀ n, reals (rest.take n) = [] := fun n => reals_eq_nil.mpr fun b hb =>
    reals_eq_nil.mp dummies b (List.mem_of_mem_take hb)
  refine ⟨rfl, withOverflow_length fits (List.length_take_of_le enough), withOverflow_take _ fits, ?_⟩
  rw [withOverflow_overflowSlots _ fits, List.take_append, List.take_of_length_le (Nat.le_of_not_lt room), reals_append,
    tail, reals_eq_self (fun b hb => (mem_reals.mp hb).2), List.append_nil, reals_append]

end Batch

section Remove

/-- The slots `read_and_remove` turns into dummies. -/
def removed (target : Vector UInt8 K) (b : OramBlock K V) : Bool :=
  decide (b.payload = target) && b.isReal

theorem readAndRemoveLoop_blocks (target : Vector UInt8 K) (value : V) (payload : Vector UInt8 K)
    (blocks : List (OramBlock K V)) :
    (readAndRemoveLoop target value payload blocks).2.2 =
      blocks.map fun b => if removed target b then { b with tag := 0 } else b := by
  induction blocks generalizing value payload with
  | nil => rfl
  | cons b blocks ih =>
    have real : ctIsReal b.tag = b.isReal.toUInt8 := OramBlock.ctIsReal_isReal b
    simp only [readAndRemoveLoop, ih, ctEqBytes_spec, real, toUInt8_and,
      OramBlock.conditionalDummy_toUInt8, List.map_cons]
    rfl

theorem reals_removed (target : Vector UInt8 K) (blocks : List (OramBlock K V)) :
    reals (blocks.map fun b => if removed target b then { b with tag := 0 } else b) =
      (reals blocks).filter fun b => b.payload ≠ target := by
  induction blocks with
  | nil => rfl
  | cons b blocks ih =>
    rw [List.map_cons]
    cases hb : b.isReal with
    | false =>
      have keep : removed target b = false := by rw [removed, hb, Bool.and_false]
      rw [keep, if_neg (by decide), reals_cons_dummy hb, reals_cons_dummy hb, ih]
    | true =>
      rw [reals_cons_real hb]
      by_cases hp : b.payload = target
      · rw [removed, hb, decide_eq_true hp, Bool.and_true, if_pos rfl, reals_cons_dummy rfl, ih,
          List.filter_cons_of_neg (by simpa using hp)]
      · rw [removed, hb, decide_eq_false hp, Bool.and_true, if_neg (by decide), reals_cons_real hb, ih,
          List.filter_cons_of_pos (by simpa using hp)]

theorem readAndRemoveLoop_none {target : Vector UInt8 K} {blocks : List (OramBlock K V)}
    (none : ∀ b ∈ reals blocks, b.payload ≠ target) (value : V) (payload : Vector UInt8 K) :
    (readAndRemoveLoop target value payload blocks).1 = value := by
  induction blocks generalizing value payload with
  | nil => rfl
  | cons b blocks ih =>
    have real : ctIsReal b.tag = b.isReal.toUInt8 := OramBlock.ctIsReal_isReal b
    have skip : (decide (b.payload = target) && b.isReal) = false := by
      cases hb : b.isReal with
      | false => exact Bool.and_false _
      | true =>
        rw [decide_eq_false (none b (mem_reals.mpr ⟨.head _, hb⟩))]
        rfl
    simp only [readAndRemoveLoop, ctEqBytes_spec, real, toUInt8_and, skip, cmovnz_toUInt8,
      Bool.false_eq_true, if_false]
    exact ih (fun c hc => none c (mem_reals.mpr ⟨.tail _ (mem_reals.mp hc).1, (mem_reals.mp hc).2⟩)) _ _

/-- With distinct payloads the loop returns the value of the one match. -/
theorem readAndRemoveLoop_found {target : Vector UInt8 K} {blocks : List (OramBlock K V)}
    (nodup : ((reals blocks).map OramBlock.payload).Nodup) {b : OramBlock K V} (hb : b ∈ reals blocks)
    (hp : b.payload = target) (value : V) (payload : Vector UInt8 K) :
    (readAndRemoveLoop target value payload blocks).1 = b.value := by
  induction blocks generalizing value payload with
  | nil => simp at hb
  | cons c blocks ih =>
    have real : ctIsReal c.tag = c.isReal.toUInt8 := OramBlock.ctIsReal_isReal c
    simp only [readAndRemoveLoop, ctEqBytes_spec, real, toUInt8_and, cmovnz_toUInt8]
    cases hc : c.isReal with
    | false =>
      rw [reals_cons_dummy hc] at nodup hb
      exact ih nodup hb _ _
    | true =>
      rw [reals_cons_real hc] at nodup hb
      rw [List.map_cons, List.nodup_cons] at nodup
      rcases List.mem_cons.mp hb with rfl | later
      · simp only [hp, decide_true, Bool.and_true, if_true]
        exact readAndRemoveLoop_none (fun d hd same => nodup.1
          (List.mem_map.mpr ⟨d, hd, same.trans hp.symm⟩)) _ _
      · exact ih nodup.2 later _ _

end Remove
end ObliviousStash
end Roga
