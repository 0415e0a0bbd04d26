import Roga.Oblivious.CompactionProofs
import Roga.Slots.Buckets

/-! Oblivious routing: real records that stand in the order of their bins are
counted for each bin and distributed to bins of one fixed size. -/
namespace Roga
open Ct Reals
variable {K : Nat} {V : Type}

section Model

/-- The load of each bin: every record of the active prefix is compared with every bin. -/
def countLoads (destination : UInt64 → Nat) (bins : Nat) (blocks : List (OramBlock K V)) (reducedLen : Nat) :
    List Nat :=
  blocks.zipIdx.foldl (fun counts (block, i) =>
    let active := ctLtCount i reducedLen &&& ctIsReal block.tag
    counts.mapIdx fun candidate count =>
      count + (active &&& ctEq (destination block.tag) candidate).toNat) (List.replicate bins 0)

def maxLoad (counts : List Nat) : Nat := counts.foldl (fun max c => cmovnz max c (ctLtCount max c)) 0

def buildDistributeMarksRouter (counts : List Nat) (perShardQuota : Nat) : List Nat :=
  0 :: runningMarks 0 (counts.flatMap fun count => (List.range perShardQuota).map fun slot => ctLtCount slot count)

/-- `Vec::resize` with dummies. -/
def resizeBlocks [Inhabited V] (blocks : List (OramBlock K V)) (len : Nat) : List (OramBlock K V) :=
  blocks.take len ++ List.replicate (len - blocks.length) OramBlock.dummy

end Model

section Flags
variable {Z : Nat}

theorem count_prefixFlags {c n : Nat} (h : c ≤ n) :
    ((List.range n).map fun slot => decide (slot < c)).count true = c := by
  rw [List.count_eq_countP, List.countP_map]
  induction n generalizing c with
  | zero => simp; omega
  | succ n ih =>
    rw [List.range_succ, List.countP_append]
    by_cases full : c = n + 1
    · subst full
      have all : List.countP ((fun x => x == true) ∘ fun slot => decide (slot < n + 1)) (List.range n) = n := by
        rw [List.countP_eq_length.mpr fun a ha => by simp at ha; simp; omega, List.length_range]
      rw [all]
      simp
    · rw [ih (by omega)]
      simp
      omega

/-- A slice made of flagged chunks of `Z` slots holds each chunk's blocks in its bucket. -/
theorem reals_chunks {ι : Type} {ls : List ι} {f : ι → List Bool} {A : ι → List (OramBlock K V)}
    {g : List Bool} {O out : List (OramBlock K V)} (len : ∀ l ∈ ls, (f l).length = Z)
    (count : ∀ l ∈ ls, (f l).count true = (A l).length) (flags : flagsOf out = ls.flatMap f ++ g)
    (blocks : reals out = ls.flatMap A ++ O) :
    (∀ i (hi : i < ls.length), reals (bucketAt Z out i) = A ls[i]) ∧
      reals (out.drop (ls.length * Z)) = O := by
  induction ls generalizing out with
  | nil => exact ⟨fun i hi => absurd hi (Nat.not_lt_zero i), by simpa using blocks⟩
  | cons l ls ih =>
    rw [List.flatMap_cons, List.append_assoc] at flags blocks
    have hl := len l (.head _)
    have cut : flagsOf (out.take Z) = f l ∧ flagsOf (out.drop Z) = ls.flatMap f ++ g := by
      have both : flagsOf (out.take Z) ++ flagsOf (out.drop Z) = f l ++ (ls.flatMap f ++ g) := by
        rw [← flags, flagsOf, flagsOf, ← List.map_append, List.take_append_drop, flagsOf]
      refine List.append_inj both ?_
      have total := congrArg List.length flags
      rw [flagsOf_length, List.length_append] at total
      rw [flagsOf_length, List.length_take]
      omega
    have parts : reals (out.take Z) = A l ∧ reals (out.drop Z) = ls.flatMap A ++ O := by
      have both : reals (out.take Z) ++ reals (out.drop Z) = A l ++ (ls.flatMap A ++ O) := by
        rw [← reals_append, List.take_append_drop, blocks]
      refine List.append_inj both ?_
      rw [← count_flagsOf, cut.1, count l (.head _)]
    obtain ⟨buckets, rest⟩ := ih (fun l' h => len l' (.tail _ h)) (fun l' h => count l' (.tail _ h))
      cut.2 parts.2
    refine ⟨fun i hi => ?_, ?_⟩
    · cases i with
      | zero =>
        rw [bucketAt, Nat.zero_mul, List.drop_zero]
        exact parts.1
      | succ i =>
        have shift : bucketAt Z out (i + 1) = bucketAt Z (out.drop Z) i := by
          rw [bucketAt, bucketAt, List.drop_drop, Nat.succ_mul, Nat.add_comm]
        rw [shift]
        exact buckets i (by simpa using hi)
    · rw [List.length_cons, Nat.succ_mul, Nat.add_comm, ← List.drop_drop]
      exact rest

end Flags

section Loads

theorem countLoads_run {destination : UInt64 → Nat} {reducedLen : Nat} (blocks : List (OramBlock K V))
    (start : Nat) (counts : List Nat) :
    (blocks.zipIdx start).foldl (fun counts (block, i) =>
      let active := ctLtCount i reducedLen &&& ctIsReal block.tag
      counts.mapIdx fun candidate count =>
        count + (active &&& ctEq (destination block.tag) candidate).toNat) counts =
      counts.mapIdx fun candidate count => count +
        ((reals (blocks.take (reducedLen - start))).countP fun b => destination b.tag = candidate) := by
  induction blocks generalizing start counts with
  | nil =>
    rw [List.take_nil]
    exact List.ext_getElem (by simp) fun i _ _ => by simp [reals]
  | cons b blocks ih =>
    have real : ctIsReal b.tag = b.isReal.toUInt8 := OramBlock.ctIsReal_isReal b
    rw [List.zipIdx_cons, List.foldl_cons, ih, List.mapIdx_mapIdx]
    refine congrArg counts.mapIdx (funext₂ fun i count => ?_)
    simp only [Function.comp_apply, real, ctLtCount, ctEq_spec, toUInt8_and, toUInt8_toNat]
    by_cases active : start < reducedLen
    · obtain ⟨n, hn⟩ := Nat.exists_eq_add_of_lt active
      rw [show reducedLen - start = n + 1 by omega, show reducedLen - (start + 1) = n by omega, List.take_succ_cons]
      cases hb : b.isReal with
      | false =>
        rw [reals_cons_dummy hb]
        simp
      | true =>
        rw [reals_cons_real hb, List.countP_cons]
        by_cases here : destination b.tag = i <;> simp [here, active]
        omega
    · rw [show reducedLen - start = 0 by omega, show reducedLen - (start + 1) = 0 by omega]
      simp [active]

/-- The loads count the active records of each bin. -/
theorem countLoads_eq (destination : UInt64 → Nat) (bins : Nat) (xs rest : List (OramBlock K V))
    (real : ∀ b ∈ xs, b.isReal = true) : countLoads destination bins (xs ++ rest) xs.length =
      (List.range bins).map fun s => xs.countP fun b => destination b.tag = s := by
  rw [countLoads, countLoads_run, Nat.sub_zero, List.take_left' rfl, reals_eq_self real]
  apply List.ext_getElem (by simp)
  intro i _ _
  simp

theorem foldl_maxLoad (counts : List Nat) (start : Nat) :
    counts.foldl (fun max c => cmovnz max c (ctLtCount max c)) start = counts.foldl max start := by
  refine congrArg (fun f => counts.foldl f start) (funext₂ fun a b => ?_)
  rw [ctLtCount, cmovnz_toUInt8]
  by_cases lt : a < b
  · rw [decide_eq_true lt, if_pos rfl, max_eq_right lt.le]
  · rw [decide_eq_false lt, if_neg Bool.false_ne_true, max_eq_left (Nat.le_of_not_lt lt)]

theorem maxLoad_le {counts : List Nat} {quota : Nat} : maxLoad counts ≤ quota ↔ ∀ c ∈ counts, c ≤ quota := by
  have fold : ∀ start, counts.foldl max start ≤ quota ↔ start ≤ quota ∧ ∀ c ∈ counts, c ≤ quota := by
    induction counts with
    | nil => simp
    | cons c counts ih =>
      intro start
      rw [List.foldl_cons, ih, max_le_iff, List.forall_mem_cons, and_assoc]
  rw [maxLoad, foldl_maxLoad, fold]
  exact and_iff_right (Nat.zero_le _)

end Loads

section Route

/-- Records in the order of their bins are their bins one after the other. -/
theorem flatMap_bins {xs : List (OramBlock K V)} {destination : OramBlock K V → Nat} {bins : Nat}
    (ascending : xs.Pairwise fun a b => destination a ≤ destination b) (inside : ∀ b ∈ xs, destination b < bins) :
    (List.range bins).flatMap (fun s => xs.filter fun b => destination b = s) = xs := by
  induction bins generalizing xs with
  | zero =>
    cases xs with
    | nil => rfl
    | cons b xs => exact absurd (inside b (.head _)) (Nat.not_lt_zero _)
  | succ n ih =>
    have cut : xs = xs.filter (fun b => destination b < n) ++ xs.filter fun b => destination b = n := by
      clear ih
      induction xs with
      | nil => rfl
      | cons b xs ih =>
        obtain ⟨first, tail⟩ := List.pairwise_cons.mp ascending
        have rest := ih tail fun c hc => inside c (.tail _ hc)
        by_cases low : destination b < n
        · rw [List.filter_cons_of_pos (by simpa using low), List.filter_cons_of_neg (by simpa using low.ne),
            List.cons_append, ← rest]
        · have last : ∀ c ∈ b :: xs, destination c = n := fun c hc => by
            have below := inside c hc
            have above : destination b ≤ destination c := by
              rcases List.mem_cons.mp hc with rfl | hc
              · exact le_rfl
              · exact first c hc
            omega
          rw [List.filter_eq_nil_iff.mpr fun c hc => by simp [last c hc],
            List.filter_eq_self.mpr fun c hc => by simp [last c hc], List.nil_append]
    have front := ih (ascending.filter fun b => destination b < n) fun b hb => by
      simpa using (List.mem_filter.mp hb).2
    rw [List.range_succ, List.flatMap_append, List.flatMap_singleton]
    conv_rhs => rw [cut, ← front]
    congr 1
    refine List.flatMap_congr fun s hs => ?_
    rw [List.filter_filter]
    refine List.filter_congr fun b _ => ?_
    have small := List.mem_range.mp hs
    by_cases here : destination b = s <;> simp [here, small]

/-- Parts that fit their bins fit together. -/
theorem length_le_of_parts {xs : List (OramBlock K V)} {part : Nat → List (OramBlock K V)} {bins quota : Nat}
    (whole : (List.range bins).flatMap part = xs) (fits : ∀ s < bins, (part s).length ≤ quota) :
    xs.length ≤ bins * quota := by
  have total := congrArg List.length whole
  rw [List.length_flatMap] at total
  have bound := List.sum_le_card_nsmul ((List.range bins).map fun s => (part s).length) quota fun n hn => by
    obtain ⟨s, hs, rfl⟩ := List.mem_map.mp hn
    exact fits s (List.mem_range.mp hs)
  rw [List.length_map, List.length_range, smul_eq_mul] at bound
  exact total.symm.trans_le bound

/-- The flags of one bin: its first `count` slots. -/
def slotFlags (quota count : Nat) : List Bool := (List.range quota).map fun slot => decide (slot < count)

theorem buildDistributeMarksRouter_eq (counts : List Nat) (quota : Nat) :
    buildDistributeMarksRouter counts quota = marksFrom 0 (counts.flatMap (slotFlags quota)) := by
  rw [buildDistributeMarksRouter, marksFrom, List.map_flatMap]
  simp only [slotFlags, List.map_map]
  rfl

variable [Inhabited V]

theorem resizeBlocks_length (blocks : List (OramBlock K V)) (len : Nat) : (resizeBlocks blocks len).length = len := by
  rw [resizeBlocks, List.length_append, List.length_take, List.length_replicate]
  omega

/-- A resize that keeps the real records keeps them in front. -/
theorem resizeBlocks_append {xs rest : List (OramBlock K V)} {len : Nat} (dummies : ∀ b ∈ rest, b.isReal = false)
    (few : xs.length ≤ len) :
    ∃ rest', resizeBlocks (xs ++ rest) len = xs ++ rest' ∧ ∀ b ∈ rest', b.isReal = false := by
  refine ⟨rest.take (len - xs.length) ++ List.replicate (len - (xs ++ rest).length) OramBlock.dummy, ?_,
    fun b hb => ?_⟩
  · rw [resizeBlocks, List.take_append, List.take_of_length_le few, List.append_assoc]
  · rcases List.mem_append.mp hb with hb | hb
    · exact dummies b (List.mem_of_mem_take hb)
    · rw [List.eq_of_mem_replicate hb]
      rfl

/-- Distribution by the lengths of consecutive parts puts each part into its own bin. -/
theorem distributePayload_parts {xs rest : List (OramBlock K V)} {part : Nat → List (OramBlock K V)} {bins quota : Nat}
    (real : ∀ b ∈ xs, b.isReal = true) (dummies : ∀ b ∈ rest, b.isReal = false)
    (whole : (List.range bins).flatMap part = xs) (fits : ∀ s < bins, (part s).length ≤ quota) :
    let out := distributePayload (resizeBlocks (xs ++ rest) (bins * quota))
      (buildDistributeMarksRouter ((List.range bins).map fun s => (part s).length) quota)
    out.length = bins * quota ∧ reals out = xs ∧ ∀ s < bins, reals (bucketAt quota out s) = part s := by
  intro out
  obtain ⟨rest', resized, dummies'⟩ := resizeBlocks_append dummies (length_le_of_parts whole fits)
  have size := resizeBlocks_length (xs ++ rest) (bins * quota)
  have slots : ∀ s ∈ List.range bins, (slotFlags quota (part s).length).length = quota := fun s _ => by
    rw [slotFlags, List.length_map, List.length_range]
  have each : ∀ s ∈ List.range bins, (slotFlags quota (part s).length).count true = (part s).length := fun s hs => by
    rw [slotFlags, count_prefixFlags (fits s (List.mem_range.mp hs))]
  have flagsLen : ((List.range bins).flatMap fun s => slotFlags quota (part s).length).length =
      (resizeBlocks (xs ++ rest) (bins * quota)).length := by
    rw [size]
    exact flatMap_range_length fun s hs => slots s (List.mem_range.mpr hs)
  have total : ((List.range bins).flatMap fun s => slotFlags quota (part s).length).count true = xs.length := by
    rw [List.count_flatMap, ← whole, List.length_flatMap]
    exact congrArg List.sum (List.map_congr_left each)
  have same : out = distributePayload (resizeBlocks (xs ++ rest) (bins * quota))
      (marksFrom 0 ((List.range bins).flatMap fun s => slotFlags quota (part s).length)) := by
    rw [← List.flatMap_map, ← buildDistributeMarksRouter_eq]
  obtain ⟨flagged, ordered⟩ := distributePayload_reals resized real dummies' flagsLen total
  rw [← same] at flagged ordered
  refine ⟨by rw [same, distributePayload_length, size], ordered, fun s hs => ?_⟩
  rw [← List.append_nil (List.flatMap _ _)] at flagged
  rw [← whole, ← List.append_nil (List.flatMap _ _)] at ordered
  obtain ⟨buckets, -⟩ := reals_chunks slots each flagged ordered
  have here := buckets s (by rwa [List.length_range])
  rwa [List.getElem_range] at here

/-- Each bin receives its own records and dummies. -/
theorem distributePayload_route {xs rest : List (OramBlock K V)} {destination : UInt64 → Nat} {bins quota : Nat}
    (real : ∀ b ∈ xs, b.isReal = true) (dummies : ∀ b ∈ rest, b.isReal = false)
    (ascending : xs.Pairwise fun a b => destination a.tag ≤ destination b.tag)
    (inside : ∀ b ∈ xs, destination b.tag < bins)
    (fits : ∀ s < bins, (xs.countP fun b => destination b.tag = s) ≤ quota) :
    let out := distributePayload (resizeBlocks (xs ++ rest) (bins * quota))
      (buildDistributeMarksRouter ((List.range bins).map fun s => xs.countP fun b => destination b.tag = s) quota)
    out.length = bins * quota ∧ reals out = xs ∧
      ∀ s < bins, reals (bucketAt quota out s) = xs.filter fun b => destination b.tag = s := by
  simp only [List.countP_eq_length_filter] at fits ⊢
  exact distributePayload_parts real dummies (flatMap_bins ascending inside) fits

end Route

section Loads
variable {xs : List (OramBlock K V)} {destination : OramBlock K V → Nat} {bins : Nat}

/-- The loads of the bins add up to all records. -/
theorem sum_loads (inside : ∀ b ∈ xs, destination b < bins) :
    ((List.range bins).map fun s => xs.countP fun b => destination b = s).sum = xs.length := by
  induction xs with
  | nil => simp
  | cons b xs ih =>
    have here : ((List.range bins).map fun s => if destination b = s then 1 else 0).sum = 1 := by
      have sum := Finset.sum_ite_eq (Finset.range bins) (destination b) fun _ => 1
      rw [if_pos (Finset.mem_range.mpr (inside b (.head _)))] at sum
      exact sum
    simp only [List.countP_cons, decide_eq_true_eq]
    rw [List.sum_map_add, ih fun c hc => inside c (.tail _ hc), here, List.length_cons]

/-- The records a bin receives by the loads alone: as many as it has, after those of the bins before it. -/
def slice (xs : List (OramBlock K V)) (destination : OramBlock K V → Nat) (s : Nat) : List (OramBlock K V) :=
  (xs.drop ((List.range s).map fun t => xs.countP fun b => destination b = t).sum).take
    (xs.countP fun b => destination b = s)

theorem flatMap_slice (inside : ∀ b ∈ xs, destination b < bins) : (List.range bins).flatMap (slice xs destination) = xs := by
  have front : ∀ n, (List.range n).flatMap (slice xs destination) =
      xs.take ((List.range n).map fun t => xs.countP fun b => destination b = t).sum := by
    intro n
    induction n with
    | zero => rfl
    | succ n ih =>
      rw [List.range_succ, List.flatMap_append, ih, List.flatMap_singleton, slice, List.map_append, List.sum_append,
        List.take_add]
      simp
  rw [front, sum_loads inside, List.take_length]

theorem slice_length (inside : ∀ b ∈ xs, destination b < bins) {s : Nat} (hs : s < bins) :
    (slice xs destination s).length = xs.countP fun b => destination b = s := by
  rw [slice, List.length_take_of_le]
  have upto : ((List.range (s + 1)).map fun t => xs.countP fun b => destination b = t).sum ≤
      ((List.range bins).map fun t => xs.countP fun b => destination b = t).sum := by
    refine List.Sublist.sum_le_sum (List.Sublist.map _ ?_) fun _ _ => Nat.zero_le _
    exact List.range_sublist.mpr hs
  rw [sum_loads inside, List.range_succ, List.map_append, List.sum_append] at upto
  rw [List.length_drop]
  simp at upto
  omega

theorem parts_unique {T : Type} {f g : Nat → List T} {n : Nat}
    (whole : (List.range n).flatMap f = (List.range n).flatMap g) (length : ∀ s < n, (f s).length = (g s).length) :
    ∀ s < n, f s = g s := by
  induction n with
  | zero => exact fun s hs => absurd hs (Nat.not_lt_zero s)
  | succ n ih =>
    rw [List.range_succ, List.flatMap_append, List.flatMap_append, List.flatMap_singleton, List.flatMap_singleton] at whole
    obtain ⟨front, last⟩ := List.append_inj' whole (length n (Nat.lt_succ_self n))
    intro s hs
    rcases Nat.lt_succ_iff_lt_or_eq.mp hs with below | rfl
    · exact ih front (fun s hs => length s (Nat.lt_succ_of_lt hs)) s below
    · exact last

/-- In the order of their bins the loads find the bins. -/
theorem slice_of_ascending (inside : ∀ b ∈ xs, destination b < bins)
    (ascending : xs.Pairwise fun a b => destination a ≤ destination b) {s : Nat} (hs : s < bins) :
    slice xs destination s = xs.filter fun b => destination b = s := by
  refine parts_unique ((flatMap_slice inside).trans (flatMap_bins ascending inside).symm) (fun t ht => ?_) s hs
  rw [slice_length inside ht, List.countP_eq_length_filter]

/-- Bins that hold their own records only hold them in order. -/
theorem ascending_of_slices (inside : ∀ b ∈ xs, destination b < bins)
    (own : ∀ s < bins, ∀ b ∈ slice xs destination s, destination b = s) :
    xs.Pairwise fun a b => destination a ≤ destination b := by
  rw [← flatMap_slice inside, List.pairwise_flatMap]
  refine ⟨fun s hs => List.pairwise_of_forall_mem_list fun a ha b hb => ?_, ?_⟩
  · rw [own s (List.mem_range.mp hs) a ha, own s (List.mem_range.mp hs) b hb]
  · refine List.pairwise_lt_range.imp_of_mem fun {s t} hs ht lt a ha b hb => ?_
    rw [own s (List.mem_range.mp hs) a ha, own t (List.mem_range.mp ht) b hb]
    exact Nat.le_of_lt lt

end Loads
end Roga
