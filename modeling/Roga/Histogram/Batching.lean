import Roga.Histogram.Pace
import Roga.Histogram.Packing
import Roga.Histogram.Stale

/-! A masked batch against its updates one by one. The chunks of a batch end where an
eviction is due, so up to the stale fields of dummies both go through the same trees. -/
namespace Roga
open Ct Reals ObliviousStash
variable {Z K A S : Nat} {V : Type} {math : ResizeMath}

section Outcomes
variable {ε α β γ δ : Type} {R : α → β → Prop} {Q : γ → δ → Prop} {x : Except ε α} {y : Except ε β}

/-- Both abort, or both end, in related values. -/
inductive SameOutcome (R : α → β → Prop) : Except ε α → Except ε β → Prop
  | error (e e' : ε) : SameOutcome R (.error e) (.error e')
  | ok {a : α} {b : β} (related : R a b) : SameOutcome R (.ok a) (.ok b)

theorem SameOutcome.bind {f : α → Except ε γ} {g : β → Except ε δ} (same : SameOutcome R x y)
    (next : ∀ a b, x = .ok a → y = .ok b → R a b → SameOutcome Q (f a) (g b)) :
    SameOutcome Q (x >>= f) (y >>= g) := by
  cases same with
  | error e e' => exact .error e e'
  | ok related => exact next _ _ rfl rfl related

theorem SameOutcome.of_iff (both : (∃ a, x = .ok a) ↔ ∃ b, y = .ok b)
    (related : ∀ a b, x = .ok a → y = .ok b → R a b) : SameOutcome R x y := by
  cases x with
  | error e =>
    cases y with
    | error e' => exact .error e e'
    | ok b =>
      obtain ⟨a, run⟩ := both.mpr ⟨b, rfl⟩
      cases run
  | ok a =>
    obtain ⟨b, rfl⟩ := both.mp ⟨a, rfl⟩
    exact .ok (related a b rfl rfl)

theorem SameOutcome.of_map {f : α → γ} {g : β → γ} (same : x.map f = y.map g) :
    SameOutcome (fun a b => f a = g b) x y := by
  cases x with
  | error e =>
    cases y with
    | error e' => exact .error e e'
    | ok b => cases same
  | ok a =>
    cases y with
    | error e' => cases same
    | ok b => exact .ok (Except.ok.inj same)

theorem SameOutcome.mono {R' : α → β → Prop} (same : SameOutcome R x y) (imp : ∀ a b, R a b → R' a b) :
    SameOutcome R' x y := by
  cases same with
  | error e e' => exact .error e e'
  | ok related => exact .ok (imp _ _ related)

theorem SameOutcome.symm {R' : β → α → Prop} (same : SameOutcome R x y) (imp : ∀ a b, R a b → R' b a) :
    SameOutcome R' y x := by
  cases same with
  | error e e' => exact .error e' e
  | ok related => exact .ok (imp _ _ related)

theorem SameOutcome.trans {z : Except ε γ} {R' : β → γ → Prop} {Q' : α → γ → Prop}
    (first : SameOutcome R x y) (second : SameOutcome R' y z) (comp : ∀ a b c, R a b → R' b c → Q' a c) :
    SameOutcome Q' x z := by
  cases first with
  | error e e' =>
    cases second with
    | error _ e'' => exact .error e e''
  | ok related =>
    cases second with
    | ok related' => exact .ok (comp _ _ _ related related')

end Outcomes

section Slots
variable [Inhabited V] {xs ys : List (OramBlock K V)}

theorem Packed.of_wipe (packed : Packed xs) (same : xs.map OramBlock.wipe = ys.map OramBlock.wipe) : Packed ys := by
  have wiped : Packed (ys.map OramBlock.wipe) := by
    rw [← same]
    refine List.pairwise_map.mpr (packed.imp fun {a b} before => ?_)
    rw [OramBlock.isReal_wipe, OramBlock.isReal_wipe]
    exact before
  refine (List.pairwise_map.mp wiped).imp fun {a b} before => ?_
  rw [OramBlock.isReal_wipe, OramBlock.isReal_wipe] at before
  exact before

/-- Packed regions of one size with the same real blocks differ in stale fields only. -/
theorem Packed.wipe_eq (px : Packed xs) (py : Packed ys) (size : xs.length = ys.length) (same : reals xs = reals ys) :
    xs.map OramBlock.wipe = ys.map OramBlock.wipe := by
  obtain ⟨rest, hx, dummies⟩ := px.split
  obtain ⟨rest', hy, dummies'⟩ := py.split
  have lengths : rest.length = rest'.length := by
    rw [hx, hy, List.length_append, List.length_append, same] at size
    exact Nat.add_left_cancel size
  rw [hx, hy, List.map_append, List.map_append, same, map_wipe_of_reals_nil dummies, map_wipe_of_reals_nil dummies',
    lengths]

theorem ObliviousStash.Appended.wipe_eq {stash stash' after after' : ObliviousStash Z K S V}
    {news : List (OramBlock K V)} (same : stash.wipe = stash'.wipe) (first : Appended stash news after)
    (second : Appended stash' news after') : after.wipe = after'.wipe := by
  obtain ⟨blocks, pathSize⟩ := ObliviousStash.mk.inj same
  have overflow : stash.overflowSlots.map OramBlock.wipe = stash'.overflowSlots.map OramBlock.wipe := by
    rw [← wipe_overflowSlots, ← wipe_overflowSlots, same]
  have front : (after.blocks.take stash.pathSize).map OramBlock.wipe =
      (after'.blocks.take stash'.pathSize).map OramBlock.wipe := by
    rw [first.front, second.front, List.map_take, List.map_take, blocks, pathSize]
  have back : after.overflowSlots.map OramBlock.wipe = after'.overflowSlots.map OramBlock.wipe := by
    refine first.packed.wipe_eq second.packed ?_ ?_
    · rw [first.slots, second.slots, ← List.length_map (f := OramBlock.wipe), overflow, List.length_map]
    · rw [first.reals, second.reals, reals_eq_of_wipe overflow]
  rw [overflowSlots, overflowSlots, first.pathSize, second.pathSize] at back
  have whole : after.blocks.map OramBlock.wipe = after'.blocks.map OramBlock.wipe := by
    rw [← List.take_append_drop stash.pathSize after.blocks, ← List.take_append_drop stash'.pathSize after'.blocks,
      List.map_append, List.map_append, front, back]
  rw [ObliviousStash.wipe, ObliviousStash.wipe, whole, first.pathSize, second.pathSize, pathSize]

end Slots

namespace ObliviousHistogram
variable [Add V] [Inhabited V] {h h' : ObliviousHistogram Z K A S V}

/-- One masked update on its own: the slot passes with or without an insertion. -/
def appendPreparedMasked (math : ResizeMath) (h : ObliviousHistogram Z K A S V) (u : PreparedUpdate K V) :
    Except Panic (ObliviousHistogram Z K A S V) :=
  if u.2.2.2 &&& 1 ≠ 0 then h.addPreparedInner math u.1 u.2.1 u.2.2.1 else h.finishAppendAfterInsert math

/-- The update as `insert_batch` gets it. -/
def stamp (epoch : UInt8) (u : PreparedUpdate K V) : MaskedUpdate K V := (u.1, epoch, u.2.1, u.2.2.1, u.2.2.2)

/-- The tree once the slots of `updates` have been counted and recorded. -/
def filled (h : ObliviousHistogram Z K A S V) (updates : List (PreparedUpdate K V)) (stash : ObliviousStash Z K S V) :
    ObliviousHistogram Z K A S V :=
  { h with stash, appendCtr := h.appendCtr + updates.length }.logSlots updates

/-- The eviction of a slot, when it is due. -/
def evictIfDue (math : ResizeMath) (h : ObliviousHistogram Z K A S V) : Except Panic (ObliviousHistogram Z K A S V) :=
  if h.currentEvictInterval ∣ h.appendCtr then h.evictAfterInsert math else .ok h

omit [Add V] [Inhabited V] in
theorem filled_cons (h : ObliviousHistogram Z K A S V) (u : PreparedUpdate K V) (updates : List (PreparedUpdate K V))
    (stash stash' : ObliviousStash Z K S V) :
    (h.filled [u] stash).filled updates stash' = h.filled (u :: updates) stash' := by
  have count : h.appendCtr + 1 + updates.length = h.appendCtr + (u :: updates).length := by
    rw [List.length_cons, Nat.add_assoc, Nat.add_comm 1]
  have events : (updates.flatMap (slotEvents h.epoch)).reverse ++
      (([u].flatMap (slotEvents h.epoch)).reverse ++ h.trace) =
        ((u :: updates).flatMap (slotEvents h.epoch)).reverse ++ h.trace := by
    rw [← List.append_assoc, ← List.reverse_append, ← List.flatMap_append, List.singleton_append]
  exact congrArg₂ (fun appendCtr trace =>
    ({ h with stash := stash', appendCtr, trace } : ObliviousHistogram Z K A S V)) count events

/-- A slot is an insertion into the stash and the eviction it may make due. -/
theorem appendPreparedMasked_eq (h : ObliviousHistogram Z K A S V) (u : PreparedUpdate K V) :
    h.appendPreparedMasked math u =
      h.stash.insertMasked (stamp h.epoch u) >>= fun stash => (h.filled [u] stash).evictIfDue math := by
  rw [appendPreparedMasked, insertMasked]
  by_cases on : u.2.2.2 &&& 1 ≠ 0
  · have recorded : ([u].flatMap (slotEvents h.epoch)).reverse = .slot :: storedEvents u.1 h.epoch u.2.2.1 := by
      rw [List.flatMap_singleton, slotEvents, if_pos on, storedEvents]
      split <;> rfl
    rw [if_pos on, if_pos (show (stamp h.epoch u).2.2.2.2 &&& 1 ≠ 0 from on), addPreparedInner]
    refine congrArg (h.stash.insert u.1 h.epoch u.2.1 u.2.2.1 >>= ·) ?_
    funext stash
    rw [finishAppendAfterInsert, evictIfDue, filled, logSlots, recorded]
    rfl
  · have recorded : ([u].flatMap (slotEvents h.epoch)).reverse = [.slot] := by
      rw [List.flatMap_singleton, slotEvents, if_neg on]
      rfl
    rw [if_neg on, if_neg (show ¬ (stamp h.epoch u).2.2.2.2 &&& 1 ≠ 0 from on)]
    change h.finishAppendAfterInsert math = (h.filled [u] h.stash).evictIfDue math
    rw [finishAppendAfterInsert, evictIfDue, filled, logSlots, recorded]
    rfl

/-- Slots that make no eviction due but for the last are insertions before it. -/
theorem chunk_each (math : ResizeMath) {updates : List (PreparedUpdate K V)} (some : updates ≠ [])
    (quiet : ∀ i, i + 1 < updates.length → ¬ h.currentEvictInterval ∣ h.appendCtr + (i + 1)) :
    updates.foldlM (appendPreparedMasked math) h =
      (updates.map (stamp h.epoch)).foldlM insertMasked h.stash >>= fun stash =>
        (h.filled updates stash).evictIfDue math := by
  induction updates generalizing h with
  | nil => exact absurd rfl some
  | cons u updates ih =>
    rw [List.foldlM_cons, appendPreparedMasked_eq, List.map_cons, List.foldlM_cons, bind_assoc, bind_assoc]
    refine congrArg (h.stash.insertMasked (stamp h.epoch u) >>= ·) ?_
    funext stash
    by_cases last : updates = []
    · rw [last]
      exact bind_pure _
    · have early : ¬ h.currentEvictInterval ∣ h.appendCtr + 1 := quiet 0 (by
        rw [List.length_cons]
        exact Nat.succ_lt_succ (List.length_pos_iff.mpr last))
      have passed : (h.filled [u] stash).evictIfDue math = .ok (h.filled [u] stash) := if_neg early
      have later := @ih (h.filled [u] stash) last fun i hi => by
        have next := quiet (i + 1) (Nat.succ_lt_succ hi)
        rwa [Nat.add_comm (i + 1) 1, ← Nat.add_assoc] at next
      rw [passed]
      refine Eq.trans later ?_
      refine congrArg ((updates.map (stamp h.epoch)).foldlM insertMasked stash >>= ·) ?_
      funext stash'
      rw [filled_cons]

/-- The loop of a batch, one chunk at a time. -/
theorem appendPreparedMaskedBatch_eq (math : ResizeMath) {updates : List (PreparedUpdate K V)} (some : updates ≠ [])
    (period : h.currentEvictInterval ≠ 0) {count : Nat}
    (chunk : h.chunkLen h.currentEvictInterval updates.length = count) :
    h.appendPreparedMaskedBatch math updates =
      h.stash.insertBatch ((updates.take count).map (stamp h.epoch)) >>= fun stash =>
        (h.filled (updates.take count) stash).evictIfDue math >>= fun g =>
          g.appendPreparedMaskedBatch math (updates.drop count) := by
  have whole : count = (updates.take count).length := by
    rw [List.length_take_of_le]
    exact chunk ▸ Nat.min_le_left ..
  rw [appendPreparedMaskedBatch, dif_neg some]
  simp only [dif_neg period, chunk]
  refine congrArg (h.stash.insertBatch ((updates.take count).map (stamp h.epoch)) >>= ·) ?_
  funext stash
  rw [filled, ← whole, evictIfDue]
  split
  · rename_i due
    exact (congrArg (· >>= fun g : ObliviousHistogram Z K A S V =>
      g.appendPreparedMaskedBatch math (updates.drop count)) (if_pos due)).symm
  · rename_i early
    exact (congrArg (· >>= fun g : ObliviousHistogram Z K A S V =>
      g.appendPreparedMaskedBatch math (updates.drop count)) (if_neg early)).symm

section Alike

/-- Equal but for the stale fields of dummies. -/
def Alike (h h' : ObliviousHistogram Z K A S V) : Prop := h.wipe = h'.wipe

omit [Add V] in
/-- What does not change when stale fields are cleared is equal in alike trees. -/
theorem Alike.same {T : Type} (alike : Alike h h') (f : ObliviousHistogram Z K A S V → T)
    (clear : ∀ g, f g.wipe = f g) : f h = f h' := by
  rw [← clear h, alike, clear]

omit [Add V] in
/-- Alike stashes make alike trees. -/
theorem Alike.filled (alike : Alike h h') (updates : List (PreparedUpdate K V)) {stash stash' : ObliviousStash Z K S V}
    (same : stash.wipe = stash'.wipe) : Alike (h.filled updates stash) (h'.filled updates stash') :=
  congrArg₂ (fun (g : ObliviousHistogram Z K A S V) stash => ({ g with
    stash, appendCtr := g.appendCtr + updates.length } : ObliviousHistogram Z K A S V).logSlots updates) alike same

theorem Alike.evictIfDue (alike : Alike h h') : SameOutcome Alike (h.evictIfDue math) (h'.evictIfDue math) := by
  have count := alike.same appendCtr fun _ => rfl
  have interval := alike.same currentEvictInterval fun _ => rfl
  rw [ObliviousHistogram.evictIfDue, ObliviousHistogram.evictIfDue, interval, count]
  split
  · apply SameOutcome.of_map
    rw [← evictAfterInsert_wipe, alike, evictAfterInsert_wipe]
  · exact .ok alike

omit [Add V] in
/-- A chunk inserted at once and the same updates inserted one by one. -/
theorem insertChunk_same (inv : h.Inv fun _ => True) (packed : Packed h.stash.overflowSlots) (alike : Alike h h')
    {updates : List (PreparedUpdate K V)} (tagged : ∀ u ∈ updates, u.2.2.2 &&& 1 ≠ 0 → u.1 ≠ 0) :
    SameOutcome (fun stash stash' => stash.wipe = stash'.wipe) (h.stash.insertBatch (updates.map (stamp h.epoch)))
      ((updates.map (stamp h'.epoch)).foldlM insertMasked h'.stash) := by
  have same : h.stash.wipe = h'.stash.wipe := congrArg ObliviousHistogram.stash alike
  have epoch := alike.same ObliviousHistogram.epoch fun _ => rfl
  obtain ⟨blocks, pathSize⟩ := ObliviousStash.mk.inj same
  have overflow : h.stash.overflowSlots.map OramBlock.wipe = h'.stash.overflowSlots.map OramBlock.wipe := by
    rw [← wipe_overflowSlots, ← wipe_overflowSlots, same]
  have packed' := packed.of_wipe overflow
  have fits' : h'.stash.pathSize ≤ h'.stash.blocks.length := by
    have lengths := congrArg List.length blocks
    rw [List.length_map, List.length_map] at lengths
    rw [← pathSize, ← lengths]
    exact inv.fits
  have real : RealTags (updates.map (stamp h'.epoch)) := by
    intro u hu
    obtain ⟨v, hv, rfl⟩ := List.mem_map.mp hu
    exact tagged v hv
  have room : ∀ news : List (OramBlock K V), h.stash.Room news ↔ h'.stash.Room news := by
    intro news
    have lengths := congrArg List.length overflow
    rw [List.length_map, List.length_map] at lengths
    rw [Room, Room, reals_eq_of_wipe overflow, lengths]
  rw [epoch]
  apply SameOutcome.of_iff
  · rw [insertBatch_ok_iff, insertEach_ok_iff fits' packed' real, room]
  · intro stash stash' batch each
    exact (insertBatch_appended inv.fits batch).wipe_eq same (insertEach_appended fits' packed' each)

/-- A batch goes through the same trees as its updates one by one. -/
theorem batch_same_each (math : ResizeMath) (interval : 0 < A) (inv : h.Inv fun _ => True)
    (packed : Packed h.stash.overflowSlots) (alike : Alike h h') {updates : List (PreparedUpdate K V)}
    (tagged : ∀ u ∈ updates, u.2.2.2 &&& 1 ≠ 0 → u.1 ≠ 0) :
    SameOutcome Alike (h.appendPreparedMaskedBatch math updates) (updates.foldlM (appendPreparedMasked math) h') := by
  induction hn : updates.length using Nat.strong_induction_on generalizing h h' updates with
  | _ n ih =>
    by_cases none : updates = []
    · rw [none, appendPreparedMaskedBatch, dif_pos rfl]
      exact .ok alike
    have period : h.currentEvictInterval ≠ 0 := by
      rw [currentEvictInterval]
      split <;> omega
    have progress := h.chunkLen_pos period (List.length_pos_iff.mpr none)
    have within : h.chunkLen h.currentEvictInterval updates.length ≤ updates.length := Nat.min_le_left ..
    have early := fun i => @chunkLen_early _ _ _ _ _ h h.currentEvictInterval updates.length i period
    have loop := appendPreparedMaskedBatch_eq math none period rfl
    generalize h.chunkLen h.currentEvictInterval updates.length = count at *
    have some : updates.take count ≠ [] := by
      rw [← List.length_pos_iff, List.length_take_of_le within]
      exact progress
    have chunk := chunk_each math (h := h') some fun i hi => by
      rw [List.length_take_of_le within] at hi
      rw [← alike.same currentEvictInterval fun _ => rfl, ← alike.same appendCtr fun _ => rfl]
      exact early i hi
    rw [loop, ← List.take_append_drop count updates, List.foldlM_append, List.take_append_drop, chunk, bind_assoc]
    have taken : ∀ u ∈ updates.take count, u.2.2.2 &&& 1 ≠ 0 → u.1 ≠ 0 :=
      fun u hu => tagged u (List.mem_of_mem_take hu)
    refine (insertChunk_same inv packed alike taken).bind fun stash stash' batch _ same => ?_
    refine ((alike.filled (updates.take count) same).evictIfDue).bind fun g g' evicted _ next => ?_
    rw [ObliviousHistogram.evictIfDue] at evicted
    obtain ⟨ginv, gpacked⟩ := batchChunk_packed inv batch evicted
    refine ih _ ?_ ginv gpacked next (fun u hu => tagged u (List.mem_of_mem_drop hu)) rfl
    rw [List.length_drop]
    omega

theorem batches_same_each (math : ResizeMath) (interval : 0 < A) (inv : h.Inv fun _ => True)
    (packed : Packed h.stash.overflowSlots) (alike : Alike h h') {batches : List (List (PreparedUpdate K V))}
    (tagged : ∀ u ∈ batches.flatten, u.2.2.2 &&& 1 ≠ 0 → u.1 ≠ 0) :
    SameOutcome Alike (batches.foldlM (appendPreparedMaskedBatch math) h)
      (batches.flatten.foldlM (appendPreparedMasked math) h') := by
  induction batches generalizing h h' with
  | nil => exact .ok alike
  | cons updates batches ih =>
    rw [List.flatten_cons] at tagged
    rw [List.foldlM_cons, List.flatten_cons, List.foldlM_append]
    have first := batch_same_each math interval inv packed alike
      fun u hu => tagged u (List.mem_append_left _ hu)
    refine first.bind fun g g' run _ next => ?_
    have ginv := (appendPreparedMaskedBatch_inv inv (fun _ _ _ _ => trivial) run).1
    have gpacked := appendPreparedMaskedBatch_packed inv packed run
    exact ih ginv gpacked next fun u hu => tagged u (List.mem_append_right _ hu)

end Alike

/-- Two trees with the same real blocks in every bucket and in the overflow, and the same
counters and estimator. -/
structure SameTree (h h' : ObliviousHistogram Z K A S V) : Prop where
  bucket : ∀ n, h.bucket n = h'.bucket n
  overflow : h.overflow = h'.overflow
  height : h.height = h'.height
  epoch : h.epoch = h'.epoch
  appendCtr : h.appendCtr = h'.appendCtr
  evictCtr : h.evictCtr = h'.evictCtr
  sweepEnd : h.sweepEnd = h'.sweepEnd
  autoResize : h.autoResize = h'.autoResize

omit [Add V] in
theorem Alike.sameTree (alike : Alike h h') : SameTree h h' where
  bucket n := alike.same (fun g => g.bucket n) fun g =>
    (congrArg reals (bucketAt_map OramBlock.wipe Z g.physicalMemory n)).trans (reals_map_wipe _)
  overflow := alike.same ObliviousHistogram.overflow fun g =>
    (congrArg reals (wipe_overflowSlots g.stash)).trans (reals_map_wipe _)
  height := alike.same ObliviousHistogram.height fun _ => rfl
  epoch := alike.same ObliviousHistogram.epoch fun _ => rfl
  appendCtr := alike.same ObliviousHistogram.appendCtr fun _ => rfl
  evictCtr := alike.same ObliviousHistogram.evictCtr fun _ => rfl
  sweepEnd := alike.same ObliviousHistogram.sweepEnd fun _ => rfl
  autoResize := alike.same ObliviousHistogram.autoResize fun _ => rfl

end ObliviousHistogram
open ObliviousHistogram

section Main
variable [Add V] [Inhabited V]

/-- From every reachable tree a masked batch and its updates one by one panic together or
end in the same tree, and so do all ways of cutting the batch into batches. -/
theorem masked_batch_one_by_one (interval : 0 < A) {cap : Nat} {prf : Aes128} {ops : List (TreeOp K V)}
    {outs : List (Option V)} {h : ObliviousHistogram Z K A S V} (hrun : runNew math cap prf ops = .ok (outs, h))
    {updates : List (PreparedUpdate K V)} (tagged : ∀ u ∈ updates, u.2.2.2 &&& 1 ≠ 0 → u.1 ≠ 0) :
    SameOutcome SameTree (h.appendPreparedMaskedBatch math updates)
      (updates.foldlM (appendPreparedMasked math) h) ∧
    ∀ batches : List (List (PreparedUpdate K V)), batches.flatten = updates →
      SameOutcome SameTree (h.appendPreparedMaskedBatch math updates)
        (batches.foldlM (appendPreparedMaskedBatch math) h) := by
  obtain ⟨inv, packed⟩ := runNew_packed hrun
  have whole := batch_same_each math interval inv packed (show Alike h h from rfl) tagged
  constructor
  · exact whole.mono fun _ _ alike => alike.sameTree
  · rintro batches rfl
    have cut := batches_same_each math interval inv packed (show Alike h h from rfl) tagged
    have back : SameOutcome Alike (batches.flatten.foldlM (appendPreparedMasked math) h)
        (batches.foldlM (appendPreparedMaskedBatch math) h) := cut.symm fun _ _ alike => Eq.symm alike
    have same : SameOutcome Alike (h.appendPreparedMaskedBatch math batches.flatten)
        (batches.foldlM (appendPreparedMaskedBatch math) h) :=
      whole.trans back fun _ _ _ first second => Eq.trans first second
    exact same.mono fun _ _ alike => alike.sameTree

end Main

theorem masked_batch_one_by_one_three :
    ∃ (outs : List (Option Nat)) (h : ObliviousHistogram 1 1 2 4 Nat),
      runNew .constant 2 id [.append [1] 5] = .ok (outs, h) ∧
      SameOutcome SameTree
        (h.appendPreparedMaskedBatch .constant
          [(3, 4, .replicate 1 3, 1), (0, 0, .replicate 1 0, 0), (5, 6, .replicate 1 5, 1)])
        ([(3, 4, .replicate 1 3, 1), (0, 0, .replicate 1 0, 0), (5, 6, .replicate 1 5, 1)].foldlM
          (appendPreparedMasked .constant) h) := by
  have run : (runNew .constant 2 id [.append [1] 5] :
      Except Panic (List (Option Nat) × ObliviousHistogram 1 1 2 4 Nat)).toBool = true := by decide +kernel
  obtain ⟨⟨outs, h⟩, run⟩ := exists_of_toBool run
  have tagged : ∀ u ∈ ([(3, 4, .replicate 1 3, 1), (0, 0, .replicate 1 0, 0), (5, 6, .replicate 1 5, 1)] :
      List (PreparedUpdate 1 Nat)), u.2.2.2 &&& 1 ≠ 0 → u.1 ≠ 0 := by decide
  exact ⟨outs, h, run, (masked_batch_one_by_one Nat.two_pos run tagged).1⟩

/-- Without an interval there is no chunk: a batch takes a remainder by zero where a single
slot finds its count no multiple of zero. -/
theorem masked_batch_without_interval :
    ∃ (outs : List (Option Nat)) (h : ObliviousHistogram 1 1 0 4 Nat), runNew .constant 2 id [] = .ok (outs, h) ∧
      h.appendPreparedMaskedBatch .constant [(3, 4, .replicate 1 3, 1)] = .error .arithmetic ∧
      (∃ h', [(3, 4, .replicate 1 3, 1)].foldlM (appendPreparedMasked .constant) h = .ok h') ∧
      ¬ SameOutcome SameTree (h.appendPreparedMaskedBatch .constant [(3, 4, .replicate 1 3, 1)])
        ([(3, 4, .replicate 1 3, 1)].foldlM (appendPreparedMasked .constant) h) := by
  have runs : ((do
      let (outs, h) ← (runNew .constant 2 id [] : Except Panic (List (Option Nat) × ObliviousHistogram 1 1 0 4 Nat))
      let h' ← [(3, 4, .replicate 1 3, 1)].foldlM (appendPreparedMasked .constant) h
      return (outs, h, h')) : Except Panic _).toOption.map (fun runs => runs.2.1.currentEvictInterval) = some 0 := by
    decide +kernel
  obtain ⟨runs, ran, period⟩ := Option.map_eq_some_iff.mp runs
  obtain ⟨⟨outs, h⟩, start, ran⟩ := bind_ok (eq_ok_of_toOption ran)
  obtain ⟨h', each, ran⟩ := bind_ok ran
  obtain rfl := Except.ok.inj ran
  have batch : h.appendPreparedMaskedBatch .constant [(3, 4, .replicate 1 3, 1)] = .error .arithmetic := by
    rw [appendPreparedMaskedBatch, dif_neg (List.cons_ne_nil _ _)]
    exact dif_pos period
  refine ⟨outs, h, start, batch, ⟨h', each⟩, fun same => ?_⟩
  rw [batch, each] at same
  cases same

end Roga
