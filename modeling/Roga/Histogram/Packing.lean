import Roga.Histogram.RunProofs

/-! Every operation leaves the real blocks of the overflow region at its front, so a
single insertion goes behind them, where a batch puts its blocks. -/
namespace Roga
open Ct Reals ObliviousStash
variable {Z K A S : Nat} {V : Type}

/-- No dummy slot lies before a real one. -/
def Packed (slots : List (OramBlock K V)) : Prop := slots.Pairwise fun a b => b.isReal = true → a.isReal = true

section Slots
variable {slots xs rest : List (OramBlock K V)}

theorem Packed.split (packed : Packed slots) : ∃ rest, slots = reals slots ++ rest ∧ reals rest = [] := by
  induction slots with
  | nil => exact ⟨[], rfl, rfl⟩
  | cons b slots ih =>
    obtain ⟨front, packed⟩ := List.pairwise_cons.mp packed
    cases hb : b.isReal with
    | true =>
      obtain ⟨rest, split, dummies⟩ := ih packed
      refine ⟨rest, ?_, dummies⟩
      rw [reals_cons_real hb, List.cons_append, ← split]
    | false =>
      have none : reals (b :: slots) = [] := by
        rw [reals_cons_dummy hb]
        apply reals_eq_nil.mpr
        intro c hc
        by_contra real
        rw [front c hc (by simpa using real)] at hb
        cases hb
      refine ⟨b :: slots, ?_, none⟩
      rw [none, List.nil_append]

theorem packed_append (real : ∀ b ∈ xs, b.isReal = true) (dummies : reals rest = []) : Packed (xs ++ rest) := by
  apply List.pairwise_append.mpr
  refine ⟨?_, ?_, ?_⟩
  · exact List.pairwise_of_forall_mem_list fun a ha b _ _ => real a ha
  · exact List.pairwise_of_forall_mem_list fun a _ b hb hr =>
      absurd hr (by rw [reals_eq_nil.mp dummies b hb]; exact Bool.false_ne_true)
  · intro a ha b _ _
    exact real a ha

/-- Flags that are set below a bound. -/
theorem packed_of_flags {n k : Nat} (flags : flagsOf slots = (List.range n).map fun slot => decide (slot < k)) :
    Packed slots := by
  have ordered : (flagsOf slots).Pairwise fun x y => y = true → x = true := by
    rw [flags, List.pairwise_map]
    refine List.pairwise_lt_range.imp fun {i j} below real => ?_
    exact decide_eq_true (below.trans (of_decide_eq_true real))
  exact List.pairwise_map.mp ordered

theorem Packed.take (packed : Packed slots) (n : Nat) : Packed (slots.take n) := packed.sublist (List.take_sublist n slots)

theorem length_reals_le (slots : List (OramBlock K V)) : (reals slots).length ≤ slots.length := List.length_filter_le _ _

end Slots

namespace ObliviousStash
variable {stash stash' stash'' : ObliviousStash Z K S V} {news more : List (OramBlock K V)}

/-- `news` has gone behind the real blocks of the overflow region. -/
structure Appended (stash : ObliviousStash Z K S V) (news : List (OramBlock K V)) (stash' : ObliviousStash Z K S V) :
    Prop where
  pathSize : stash'.pathSize = stash.pathSize
  length : stash'.blocks.length = stash.blocks.length
  front : stash'.blocks.take stash.pathSize = stash.blocks.take stash.pathSize
  reals : reals stash'.overflowSlots = reals stash.overflowSlots ++ news
  packed : Packed stash'.overflowSlots

/-- There is a slot for each of `news`. -/
def Room (stash : ObliviousStash Z K S V) (news : List (OramBlock K V)) : Prop :=
  (Roga.reals stash.overflowSlots).length + news.length ≤ stash.overflowSlots.length

theorem Appended.refl (packed : Packed stash.overflowSlots) : Appended stash [] stash :=
  ⟨rfl, rfl, rfl, (List.append_nil _).symm, packed⟩

theorem Appended.trans (first : Appended stash news stash') (second : Appended stash' more stash'') :
    Appended stash (news ++ more) stash'' := by
  constructor
  · exact second.pathSize.trans first.pathSize
  · exact second.length.trans first.length
  · rw [← first.front, ← first.pathSize]
    exact second.front
  · rw [second.reals, first.reals, List.append_assoc]
  · exact second.packed

theorem Appended.slots (appended : Appended stash news stash') : stash'.overflowSlots.length = stash.overflowSlots.length := by
  rw [overflowSlots, overflowSlots, List.length_drop, List.length_drop, appended.length, appended.pathSize]

theorem Appended.room_iff (appended : Appended stash news stash') : stash'.Room more ↔ stash.Room (news ++ more) := by
  rw [Room, Room, appended.slots, appended.reals, List.length_append, List.length_append, Nat.add_assoc]

section Insert
variable {tag : UInt64} {epoch : UInt8} {value : V} {payload : Vector UInt8 K}

/-- The first dummy of a packed region follows its real blocks. -/
theorem insertLoop_reals {xs : List (OramBlock K V)} (real : ∀ b ∈ xs, b.isReal = true) (slots : List (OramBlock K V)) :
    insertLoop tag epoch value payload false.toUInt8 (xs ++ slots) =
      Prod.map id (xs ++ ·) (insertLoop tag epoch value payload false.toUInt8 slots) := by
  induction xs with
  | nil => rfl
  | cons b xs ih =>
    have hb : ctIsReal b.tag = b.isReal.toUInt8 := OramBlock.ctIsReal_isReal b
    rw [real b (.head _)] at hb
    rw [List.cons_append, insertLoop]
    simp only [hb, ctNot_toUInt8, toUInt8_and, toUInt8_or, Bool.not_true, Bool.false_and, Bool.or_false,
      OramBlock.assignIf_toUInt8, Bool.false_eq_true, if_false, ih fun c hc => real c (.tail _ hc)]
    rfl

theorem insert_appended (fits : stash.pathSize ≤ stash.blocks.length) (packed : Packed stash.overflowSlots)
    (run : stash.insert tag epoch value payload = .ok stash') :
    Appended stash (Roga.reals [{ tag, epoch, value, payload }]) stash' := by
  obtain ⟨size, length, front, -⟩ := insert_spec tag epoch value payload fits run
  obtain ⟨rest, split, dummies⟩ := packed.split
  have real : ∀ b ∈ Roga.reals stash.overflowSlots, b.isReal = true := fun b hb => (mem_reals.mp hb).2
  rw [insert, split, show (0 : UInt8) = false.toUInt8 from rfl, insertLoop_reals real] at run
  cases rest with
  | nil => exact absurd run (by simp [insertLoop])
  | cons b rest =>
    have hb : ctIsReal b.tag = b.isReal.toUInt8 := OramBlock.ctIsReal_isReal b
    have none := reals_eq_nil.mp dummies
    rw [none b (.head _)] at hb
    simp only [insertLoop, hb, ctNot_toUInt8, toUInt8_and, toUInt8_or, Bool.not_false, Bool.and_true, Bool.or_true,
      insertLoop_placed, OramBlock.assignIf_toUInt8, if_true, Prod.map_apply, id] at run
    split at run
    · simp at run
    simp only [Except.ok.injEq] at run
    have slots : stash'.overflowSlots = Roga.reals stash.overflowSlots ++ { tag, epoch, value, payload } :: rest := by
      rw [← run]
      exact withOverflow_overflowSlots _ fits
    have tail : Roga.reals rest = [] := reals_eq_nil.mpr fun c hc => none c (.tail _ hc)
    refine ⟨size, length, front, ?_, ?_⟩
    · rw [slots, reals_append, reals_eq_self real, ← List.singleton_append, reals_append, tail, List.append_nil]
    · rw [slots]
      by_cases new : tag = 0
      · refine packed_append real ?_
        rw [reals_cons_dummy (OramBlock.isReal_eq_false.mpr new), tail]
      · rw [← List.singleton_append, ← List.append_assoc]
        refine packed_append (fun c hc => ?_) tail
        rcases List.mem_append.mp hc with hc | hc
        · exact real c hc
        · rw [List.mem_singleton.mp hc]
          exact OramBlock.isReal_iff.mpr new

/-- A real block can be inserted exactly when a slot is left. -/
theorem insert_ok_iff (fits : stash.pathSize ≤ stash.blocks.length) (packed : Packed stash.overflowSlots) (new : tag ≠ 0) :
    (∃ stash', stash.insert tag epoch value payload = .ok stash') ↔ stash.Room [{ tag, epoch, value, payload }] := by
  have real : (⟨tag, epoch, value, payload⟩ : OramBlock K V).isReal = true := OramBlock.isReal_iff.mpr new
  constructor
  · rintro ⟨stash', run⟩
    have appended := insert_appended fits packed run
    have bound := length_reals_le stash'.overflowSlots
    rwa [appended.reals, appended.slots, List.length_append, reals_cons_real real, reals_nil] at bound
  · intro room
    apply insert_ok
    by_contra full
    have all : Roga.reals stash.overflowSlots = stash.overflowSlots := reals_eq_self fun b hb => by
      by_contra hr
      exact full ⟨b, hb, by simpa using hr⟩
    rw [Room, all, List.length_singleton] at room
    omega

end Insert

section Batch
variable [Inhabited V] {updates : List (MaskedUpdate K V)}

theorem insertBatch_ok_iff : (∃ stash', stash.insertBatch updates = .ok stash') ↔
    stash.Room (Roga.reals (updates.map updateBlock)) := by
  obtain ⟨rest, -, -, batch⟩ := insertBatch_eq stash updates
  rw [batch, Room, ← List.length_append, ← reals_append]
  split
  · rename_i full
    constructor
    · rintro ⟨stash', run⟩
      cases run
    · exact fun room => absurd full (Nat.not_lt_of_le room)
  · rename_i room
    exact ⟨fun _ => Nat.le_of_not_lt room, fun _ => ⟨_, rfl⟩⟩

theorem insertBatch_appended (fits : stash.pathSize ≤ stash.blocks.length)
    (run : stash.insertBatch updates = .ok stash') :
    Appended stash (Roga.reals (updates.map updateBlock)) stash' := by
  obtain ⟨size, length, front, added⟩ := insertBatch_spec fits run
  obtain ⟨rest, dummies, -, batch⟩ := insertBatch_eq stash updates
  refine ⟨size, length, front, added, ?_⟩
  rw [batch] at run
  split at run
  · simp at run
  cases run
  rw [withOverflow_overflowSlots _ fits]
  exact (packed_append (fun b hb => (mem_reals.mp hb).2) dummies).take _

/-- One masked update: an insertion, or nothing. -/
def insertMasked (stash : ObliviousStash Z K S V) (u : MaskedUpdate K V) : Except Panic (ObliviousStash Z K S V) :=
  if u.2.2.2.2 &&& 1 ≠ 0 then stash.insert u.1 u.2.1 u.2.2.1 u.2.2.2.1 else .ok stash

/-- Unmasked updates carry real tags. -/
def RealTags (updates : List (MaskedUpdate K V)) : Prop := ∀ u ∈ updates, u.2.2.2.2 &&& 1 ≠ 0 → u.1 ≠ 0

theorem insertMasked_appended (fits : stash.pathSize ≤ stash.blocks.length) (packed : Packed stash.overflowSlots)
    {u : MaskedUpdate K V} (run : stash.insertMasked u = .ok stash') :
    Appended stash (Roga.reals [updateBlock u]) stash' := by
  rw [insertMasked] at run
  rw [updateBlock_eq]
  split at run
  · rename_i on
    rw [if_pos (by simpa using on)]
    exact insert_appended fits packed run
  · rename_i off
    rw [if_neg (by simpa using off), reals_cons_dummy OramBlock.isReal_dummy, reals_nil]
    cases run
    exact .refl packed

theorem insertMasked_ok_iff (fits : stash.pathSize ≤ stash.blocks.length) (packed : Packed stash.overflowSlots)
    {u : MaskedUpdate K V} (tagged : u.2.2.2.2 &&& 1 ≠ 0 → u.1 ≠ 0) :
    (∃ stash', stash.insertMasked u = .ok stash') ↔ stash.Room (Roga.reals [updateBlock u]) := by
  rw [insertMasked, updateBlock_eq]
  by_cases on : u.2.2.2.2 &&& 1 ≠ 0
  · have real : (⟨u.1, u.2.1, u.2.2.1, u.2.2.2.1⟩ : OramBlock K V).isReal = true :=
      OramBlock.isReal_iff.mpr (tagged on)
    rw [if_pos on, if_pos (by simpa using on), insert_ok_iff fits packed (tagged on), reals_cons_real real, reals_nil]
  · rw [if_neg on, if_neg (by simpa using on), reals_cons_dummy OramBlock.isReal_dummy, reals_nil]
    exact ⟨fun _ => length_reals_le _, fun _ => ⟨stash, rfl⟩⟩

theorem insertEach_appended (fits : stash.pathSize ≤ stash.blocks.length) (packed : Packed stash.overflowSlots)
    (run : updates.foldlM insertMasked stash = .ok stash') :
    Appended stash (Roga.reals (updates.map updateBlock)) stash' := by
  induction updates generalizing stash with
  | nil =>
    cases run
    exact .refl packed
  | cons u updates ih =>
    rw [List.foldlM_cons] at run
    obtain ⟨next, one, run⟩ := ObliviousHistogram.bind_ok run
    have first := insertMasked_appended fits packed one
    have rest := ih (by rw [first.pathSize, first.length]; exact fits) first.packed run
    rw [List.map_cons, ← List.singleton_append, reals_append]
    exact first.trans rest

/-- Updates inserted one by one fit exactly when they fit together. -/
theorem insertEach_ok_iff (fits : stash.pathSize ≤ stash.blocks.length) (packed : Packed stash.overflowSlots)
    (tagged : RealTags updates) : (∃ stash', updates.foldlM insertMasked stash = .ok stash') ↔
      stash.Room (Roga.reals (updates.map updateBlock)) := by
  induction updates generalizing stash with
  | nil => exact ⟨fun _ => length_reals_le _, fun _ => ⟨stash, rfl⟩⟩
  | cons u updates ih =>
    have step : ∀ {next}, stash.insertMasked u = .ok next →
        ((∃ stash', updates.foldlM insertMasked next = .ok stash') ↔
          stash.Room (Roga.reals ((u :: updates).map updateBlock))) := by
      intro next one
      have first := insertMasked_appended fits packed one
      rw [ih (by rw [first.pathSize, first.length]; exact fits) first.packed fun v hv => tagged v (.tail _ hv),
        first.room_iff, ← reals_append]
      rfl
    constructor
    · rintro ⟨stash', run⟩
      rw [List.foldlM_cons] at run
      obtain ⟨next, one, run⟩ := ObliviousHistogram.bind_ok run
      exact (step one).mp ⟨stash', run⟩
    · intro room
      have enough : stash.Room (Roga.reals [updateBlock u]) := by
        rw [List.map_cons, ← List.singleton_append, reals_append, Room, List.length_append] at room
        rw [Room]
        omega
      obtain ⟨next, one⟩ := (insertMasked_ok_iff fits packed (tagged u (.head _))).mpr enough
      obtain ⟨stash', run⟩ := (step one).mpr room
      refine ⟨stash', ?_⟩
      rw [List.foldlM_cons, one]
      exact run

end Batch

section WriteBack
variable [Inhabited V]

/-- A write-back fills the overflow region from its front. -/
theorem writeToPath_packed {height position : Nat} {memory memory' : List (OramBlock K V)} (low : 2 ^ height ≤ position)
    (high : position < 2 ^ (height + 1)) (hh : height ≤ 31) (hpath : stash.pathSize = Z * (height + 1))
    (hlen : stash.pathSize ≤ stash.blocks.length)
    (sorted : (Roga.reals stash.blocks).Pairwise fun a b => rank a.tag position height ≤ rank b.tag position height)
    (run : stash.writeToPath memory position = .ok (stash', memory')) : Packed stash'.overflowSlots := by
  obtain ⟨bound, A, O, out, -, -, -, flagged, -, rfl, -⟩ := writeToPath_layout low high hh hpath hlen sorted run
  have slots : flagsOf (out.drop stash.pathSize) = (List.range (stash.blocks.length - stash.pathSize)).map
      fun slot => decide (slot < O.length) := by
    have front : (layoutFlags Z height 0 A []).length = stash.pathSize := by
      rw [layoutFlags_length, hpath, Nat.mul_comm, Nat.add_zero]
    rw [layoutFlags, List.range_zero, List.map_nil, List.append_nil] at front
    rw [flagsOf, ← List.map_drop.symm, ← flagsOf, flagged, layoutFlags]
    exact List.drop_left' front
  apply packed_of_flags (k := O.length)
  rw [overflowSlots, List.drop_left' (List.length_replicate ..)]
  exact slots

end WriteBack
end ObliviousStash

namespace ObliviousHistogram
variable {known : UInt64 × Vector UInt8 K → Prop} {h h' : ObliviousHistogram Z K A S V} {math : ResizeMath}

theorem Inv.fits (inv : h.Inv known) : h.stash.pathSize ≤ h.stash.blocks.length := by
  rw [inv.shape.slots]
  exact Nat.le_add_right _ _

variable [Add V] [Inhabited V]

/-- The write-back of a prepared path, from any tree of the same shape. -/
theorem writePath_packed {m : ObliviousHistogram Z K A S V} {leaf : TreeIndex} (shape : h.Shape)
    (low : 2 ^ h.height ≤ leaf) (high : leaf < 2 ^ (h.height + 1)) (size : m.stash.pathSize = h.stash.pathSize)
    (length : m.stash.blocks.length = h.stash.blocks.length)
    (sorted : (reals m.stash.blocks).Pairwise fun a b => rank a.tag leaf h.height ≤ rank b.tag leaf h.height)
    (run : m.writePath leaf = .ok h') : Packed h'.stash.overflowSlots := by
  obtain ⟨written, -⟩ := writePath_fields run
  refine writeToPath_packed low high shape.height_le (size.trans shape.path) ?_ sorted written
  rw [size, length, shape.slots]
  exact Nat.le_add_right _ _

theorem Reshuffle.packed (moves : Reshuffle h h') (inv : h.Inv known) (packed : Packed h.stash.overflowSlots) :
    Packed h'.stash.overflowSlots := by
  induction moves with
  | fields _ stash _ _ _ => exact stash ▸ packed
  | touch leaf low high _ stash _ _ _ run =>
    obtain ⟨size, length, -, sorted⟩ := mergedStash_spec low high inv.shape
    exact writePath_packed inv.shape low high (stash ▸ size) (stash ▸ length) (stash ▸ sorted) run
  | grow run =>
    obtain ⟨-, -, -, -, -, -, -, -, -, stash, -⟩ := growPhysicalStorage_spec run
    rw [stash, overflowSlots, growExtendPathBuffer, List.drop_left' (by
      rw [List.length_append, List.length_replicate, List.length_take_of_le inv.fits])]
    exact packed
  | trans first _ ih₁ ih₂ => exact ih₂ (first.inv inv) (ih₁ inv packed)

omit [Add V] in
theorem new_packed {cap : Nat} {prf : Aes128} {h : ObliviousHistogram Z K A S V} (run : new cap prf = .ok h) :
    Packed h.stash.overflowSlots := by
  obtain ⟨height, -, run⟩ := bind_ok run
  simp only [pure, Except.pure, Except.ok.injEq] at run
  rw [← run, overflowSlots, ObliviousStash.new, List.drop_replicate]
  exact List.pairwise_replicate.mpr (.inr id)

theorem addPreparedInner_packed (inv : h.Inv fun _ => True) (packed : Packed h.stash.overflowSlots) {tag : UInt64}
    {val : V} {payload : Vector UInt8 K} (run : h.addPreparedInner math tag val payload = .ok h') :
    Packed h'.stash.overflowSlots := by
  obtain ⟨stash, inserted, run⟩ := bind_ok run
  obtain ⟨minv, -⟩ := insert_step inv (fun _ => trivial) inserted
  have logged : (({ h with stash } : ObliviousHistogram Z K A S V).logStored tag payload).Inv fun _ => True :=
    minv.congr rfl rfl rfl
  have appended := insert_appended inv.fits packed inserted
  exact (finishAppendAfterInsert_reshuffle logged.shape.height_le run).packed logged appended.packed

/-- One chunk of a batch with the eviction it is followed by. -/
theorem batchChunk_packed (inv : h.Inv fun _ => True) {updates : List (PreparedUpdate K V)}
    {stash : ObliviousStash Z K S V} {due : Prop} [Decidable due] {count : Nat}
    (inserted : h.stash.insertBatch (updates.map fun u => (u.1, h.epoch, u.2.1, u.2.2.1, u.2.2.2)) = .ok stash)
    (run : (if due then ({ h with stash, appendCtr := h.appendCtr + count }.logSlots updates :
      ObliviousHistogram Z K A S V).evictAfterInsert math else
      .ok ({ h with stash, appendCtr := h.appendCtr + count }.logSlots updates)) = .ok h') :
    h'.Inv (fun _ => True) ∧ Packed h'.stash.overflowSlots := by
  obtain ⟨chunk, -⟩ := batchChunk_step inv (fun _ _ _ _ => trivial) inserted count
  have moved := evictIf_reshuffle chunk.shape.height_le run
  exact ⟨moved.inv chunk, moved.packed chunk (insertBatch_appended inv.fits inserted).packed⟩

theorem appendPreparedMaskedBatch_packed (inv : h.Inv fun _ => True) (packed : Packed h.stash.overflowSlots)
    {updates : List (PreparedUpdate K V)} (run : h.appendPreparedMaskedBatch math updates = .ok h') :
    Packed h'.stash.overflowSlots := by
  induction hn : updates.length using Nat.strong_induction_on generalizing h updates with
  | _ n ih =>
    by_cases none : updates = []
    · rw [none, appendPreparedMaskedBatch, dif_pos rfl, Except.ok.injEq] at run
      exact run ▸ packed
    obtain ⟨period, stash, g, inserted, evicted, run⟩ := appendPreparedMaskedBatch_cons none run
    obtain ⟨ginv, gpacked⟩ := batchChunk_packed inv inserted evicted
    have progress := h.chunkLen_pos period (List.length_pos_iff.mpr none)
    refine ih _ ?_ ginv gpacked run rfl
    have some := List.length_pos_iff.mpr none
    rw [List.length_drop]
    omega

theorem readPreparedTotal_packed (inv : h.Inv fun _ => True) {tag : UInt64} {payload : Vector UInt8 K} {v : V}
    (run : h.readPreparedTotal tag payload = .ok (v, h')) : Packed h'.stash.overflowSlots := by
  obtain ⟨-, g, written, rfl⟩ := readPreparedTotal_spec run
  obtain ⟨low, high⟩ := toLeaf_bounds tag inv.shape.height_le
  obtain ⟨size, length, -, sorted⟩ := mergedStash_spec low high inv.shape
  have blocks : (h.removedPath (toLeaf tag h.height) payload).stash.blocks =
      (h.mergedStash (toLeaf tag h.height)).blocks.map fun b => if removed payload b then { b with tag := 0 } else b :=
    readAndRemoveLoop_blocks payload _ _ _
  have stash : g.updatePeakOverflow.stash = g.stash := by
    rw [updatePeakOverflow]
    split <;> rfl
  rw [stash]
  refine writePath_packed (m := h.removedPath (toLeaf tag h.height) payload) inv.shape low high size ?_ ?_ written
  · rw [blocks, List.length_map, length]
  · rw [blocks, reals_removed]
    exact sorted.filter _

theorem step_packed {op : TreeOp K V} {out : Option V} (inv : h.Inv fun _ => True)
    (packed : Packed h.stash.overflowSlots) (run : h.step math op = .ok (out, h')) : Packed h'.stash.overflowSlots := by
  by_cases quiet : (∀ key val, op ≠ .append key val) ∧ (∀ updates, op ≠ .appendBatch updates) ∧
      ∀ key, op ≠ .readTotal key
  · exact (step_reshuffle run quiet.1 quiet.2.1 quiet.2.2).1.packed inv packed
  cases op with
  | append key val =>
    obtain ⟨g, hg, same⟩ := map_ok run
    obtain ⟨-, rfl⟩ := Prod.mk.inj same
    exact addPreparedInner_packed inv packed hg
  | appendBatch updates =>
    obtain ⟨g, hg, same⟩ := map_ok run
    obtain ⟨-, rfl⟩ := Prod.mk.inj same
    exact appendPreparedMaskedBatch_packed inv packed hg
  | readTotal key =>
    obtain ⟨⟨v, g⟩, hg, run⟩ := bind_ok run
    simp only [pure, Except.pure, Except.ok.injEq, Prod.mk.injEq] at run
    obtain ⟨-, rfl⟩ := run
    exact readPreparedTotal_packed inv hg
  | _ => exact absurd ⟨fun _ _ => by simp, fun _ => by simp, fun _ => by simp⟩ quiet

theorem run_packed {ops : List (TreeOp K V)} {outs : List (Option V)} (inv : h.Inv fun _ => True)
    (packed : Packed h.stash.overflowSlots) (hrun : h.run math ops = .ok (outs, h')) : Packed h'.stash.overflowSlots := by
  induction ops generalizing h outs with
  | nil =>
    simp only [run, Except.ok.injEq, Prod.mk.injEq] at hrun
    exact hrun.2 ▸ packed
  | cons op ops ih =>
    obtain ⟨out, outs', g, hstep, htail, -⟩ := run_cons hrun
    exact ih (step_inv inv (fun _ _ => trivial) hstep).1 (step_packed inv packed hstep) htail

/-- The overflow region of every reachable tree is packed. -/
theorem runNew_packed {cap : Nat} {prf : Aes128} {ops : List (TreeOp K V)} {outs : List (Option V)}
    (hrun : runNew math cap prf ops = .ok (outs, h)) : h.Inv (fun _ => True) ∧ Packed h.stash.overflowSlots := by
  obtain ⟨h₀, start, hrun⟩ := bind_ok hrun
  have inv : h₀.Inv fun _ => True := (new_spec start).1
  exact ⟨(run_inv inv (fun _ _ _ _ => trivial) hrun).1, run_packed inv (new_packed start) hrun⟩

end ObliviousHistogram
end Roga
