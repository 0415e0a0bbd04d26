import Roga.Histogram.ReadoutProofs
import Roga.Histogram.Totals
import Roga.Sharded.Router

/-! A frontend delivers every record to its own shard as long as the packed sort
key orders the records of its batch by shard. -/
namespace Roga
open Ct Reals
variable {K : Nat} {V : Type}

section Key

theorem shardIndexForTag_le (tag : UInt64) (shardCount : Nat) : shardIndexForTag tag shardCount ≤ shardCount - 1 :=
  Nat.and_le_right

theorem shardIndexForTag_lt (tag : UInt64) {shardCount : Nat} (some : shardCount ≠ 0) :
    shardIndexForTag tag shardCount < shardCount := by
  have := shardIndexForTag_le tag shardCount
  omega

theorem shardIndexForTag_lt_word (tag : UInt64) (shardCount : Nat) : shardIndexForTag tag shardCount < 2 ^ 32 := by
  have high : (tag >>> 32).toNat < 2 ^ 32 := by
    rw [UInt64.toNat_shiftRight]
    have := tag.toNat_lt
    change tag.toNat >>> 32 < 2 ^ 32
    rw [Nat.shiftRight_eq_div_pow]
    omega
  exact Nat.and_le_left.trans_lt high

/-- The shard keeps 6 bits, above the dummy bit and 57 bits of the tag. -/
theorem shardSortKey_toNat (shardCount : Nat) (tag : UInt64) : (shardSortKey shardCount tag).toNat =
    shardIndexForTag tag shardCount % 64 * 2 ^ 58 + (if tag = 0 then 2 ^ 57 else 0) + tag.toNat % 2 ^ 57 := by
  have word := shardIndexForTag_lt_word tag shardCount
  have shard : (UInt64.ofNat (shardIndexForTag tag shardCount) <<< 58).toNat =
      shardIndexForTag tag shardCount % 64 * 2 ^ 58 := by
    rw [UInt64.toNat_shiftLeft, UInt64.toNat_ofNat_of_lt' (word.trans (by decide))]
    change shardIndexForTag tag shardCount <<< 58 % 2 ^ 64 = _
    rw [Nat.shiftLeft_eq]
    omega
  have dummy : ((ctNot (ctIsReal tag)).toUInt64 <<< 57).toNat = if tag = 0 then 2 ^ 57 else 0 := by
    rw [ctIsReal_spec, ctNot_toUInt8]
    by_cases h : tag = 0 <;> simp [h]
  have low : (tag &&& 0x01ffffffffffffff).toNat = tag.toNat % 2 ^ 57 := by
    rw [UInt64.toNat_and, show (0x01ffffffffffffff : UInt64).toNat = 2 ^ 57 - 1 by decide,
      Nat.and_two_pow_sub_one_eq_mod]
  have small : tag.toNat % 2 ^ 57 < 2 ^ 57 := Nat.mod_lt _ (by decide)
  rw [shardSortKey]
  simp only [UInt64.toNat_or, shard, dummy, low]
  generalize tag.toNat % 2 ^ 57 = bits at small ⊢
  rw [Nat.or_assoc, Nat.mul_comm _ (2 ^ 58)]
  split
  · rw [← Nat.mul_one (2 ^ 57), ← Nat.two_pow_add_eq_or_of_lt small, ← Nat.two_pow_add_eq_or_of_lt (by omega)]
    omega
  · rw [Nat.zero_or, ← Nat.two_pow_add_eq_or_of_lt (by omega)]
    omega

end Key

section Process
variable [Add V] [Inhabited V] {batch : List (OramBlock K V)} {shardCount quota : Nat} {frontend : RouterFrontend K V}

/-- The records of a batch after sorting and reduction. -/
structure Survivors (shardCount : Nat) (batch xs : List (OramBlock K V)) : Prop where
  real : ∀ b ∈ xs, b.isReal = true
  known : ∀ b ∈ xs, ∃ a ∈ reals batch, a.identity = b.identity
  ascending : xs.Pairwise fun a b => shardSortKey shardCount a.tag ≤ shardSortKey shardCount b.tag
  mass : ∀ {M : Type} [AddCommSemigroup M] (f : V →ₙ+ M) (p : Vector UInt8 K), mass f p xs = Roga.mass f p batch

theorem survivors_of_sorted {sorted : List (OramBlock K V)} (perm : sorted.Perm batch)
    (ascending : sorted.Pairwise fun a b => shardSortKey shardCount a.tag ≤ shardSortKey shardCount b.tag) :
    Survivors shardCount batch (reals (reduceEqualRuns sorted)) := by
  refine ⟨fun b hb => (mem_reals.mp hb).2, fun b hb => known_of_reduced perm hb, ?_, fun f p => ?_⟩
  · have whole : ((reals sorted).map OramBlock.identity).Pairwise fun a b =>
        shardSortKey shardCount a.1 ≤ shardSortKey shardCount b.1 := by
      rw [List.pairwise_map]
      exact ascending.filter _
    have kept := whole.sublist (identity_sublist (reduceEqualRuns_fields sorted))
    rw [List.pairwise_map] at kept
    exact kept
  · rw [mass_reals, reduceEqualRuns_mass, mass_perm p perm]

/-- Loads that fit are handed out one after the other; a load that does not fit is a panic. -/
theorem processSubBatch_run {xs rest : List (OramBlock K V)} (some : shardCount ≠ 0)
    (real : ∀ b ∈ xs, b.isReal = true) (dummies : ∀ b ∈ rest, b.isReal = false)
    (reduced : sortReduceCompact batch (fun block => shardSortKey shardCount block.tag) = (xs ++ rest, xs.length)) :
    ((∀ s < shardCount, (xs.countP fun b => shardIndexForTag b.tag shardCount = s) ≤ quota) ∧
      ∃ frontend, processSubBatch batch shardCount quota = .ok frontend ∧
        frontend.routerBlocks.length = shardCount * quota ∧ reals frontend.routerBlocks = xs ∧
        ∀ s < shardCount, reals (bucketAt quota frontend.routerBlocks s) =
          slice xs (fun b => shardIndexForTag b.tag shardCount) s) ∨
    ((¬ ∀ s < shardCount, (xs.countP fun b => shardIndexForTag b.tag shardCount = s) ≤ quota) ∧
      ∃ load, processSubBatch batch shardCount quota = .error (.shardBatchOverflow load quota)) := by
  have inside : ∀ b ∈ xs, shardIndexForTag b.tag shardCount < shardCount := fun b _ => shardIndexForTag_lt b.tag some
  have loads : ((List.range shardCount).map fun s => xs.countP fun b => shardIndexForTag b.tag shardCount = s) =
      (List.range shardCount).map fun s => (slice xs (fun b => shardIndexForTag b.tag shardCount) s).length :=
    List.map_congr_left fun s hs => (slice_length inside (List.mem_range.mp hs)).symm
  have fits := @maxLoad_le ((List.range shardCount).map fun s =>
    xs.countP fun b => shardIndexForTag b.tag shardCount = s) quota
  simp only [List.forall_mem_map, List.mem_range] at fits
  rw [processSubBatch, if_neg some]
  simp only [reduced, countLoads_eq (shardIndexForTag · shardCount) shardCount xs rest real]
  by_cases room : ∀ s < shardCount, (xs.countP fun b => shardIndexForTag b.tag shardCount = s) ≤ quota
  · rw [if_pos (fits.mpr room), loads]
    obtain ⟨length, ordered, slots⟩ := distributePayload_parts real dummies (flatMap_slice inside)
      fun s hs => (slice_length inside hs).trans_le (room s hs)
    exact .inl ⟨room, _, rfl, length, ordered, slots⟩
  · rw [if_neg fun h => room (fits.mp h)]
    exact .inr ⟨room, _, rfl⟩

/-- A frontend that does not panic hands out the surviving records by the loads. -/
theorem processSubBatch_ok (run : processSubBatch batch shardCount quota = .ok frontend) :
    shardCount ≠ 0 ∧ frontend.routerBlocks.length = shardCount * quota ∧
      Survivors shardCount batch (reals frontend.routerBlocks) ∧
      ∀ s < shardCount, reals (bucketAt quota frontend.routerBlocks s) =
        slice (reals frontend.routerBlocks) (fun b => shardIndexForTag b.tag shardCount) s := by
  obtain ⟨sorted, rest, perm, ascending, dummies, reduced⟩ := sortReduceCompact_eq batch
    fun block => shardSortKey shardCount block.tag
  have survivors := survivors_of_sorted perm ascending
  have some : shardCount ≠ 0 := by
    rintro rfl
    exact nomatch run
  rcases processSubBatch_run some survivors.real dummies reduced with ⟨-, done, run', length, ordered, slots⟩ | ⟨-, load, run'⟩
  · obtain rfl := Except.ok.inj (run'.symm.trans run)
    rw [ordered]
    exact ⟨some, length, survivors, slots⟩
  · exact nomatch run'.symm.trans run

end Process

section Orders
variable {shardCount : Nat}

/-- The packed sort key orders these tags by shard. -/
def KeyOrders (shardCount : Nat) (tags : UInt64 → Prop) : Prop :=
  ∀ a b, tags a → tags b → shardIndexForTag a shardCount < shardIndexForTag b shardCount →
    shardSortKey shardCount a < shardSortKey shardCount b

theorem shardSortKey_real {tag : UInt64} (real : tag ≠ 0) : (shardSortKey shardCount tag).toNat =
    shardIndexForTag tag shardCount % 64 * 2 ^ 58 + tag.toNat % 2 ^ 57 := by
  rw [shardSortKey_toNat, if_neg real, Nat.add_zero]

/-- Up to 64 shards have room in the key. -/
theorem keyOrders_of_le (few : shardCount ≤ 64) : KeyOrders shardCount (· ≠ 0) := by
  intro a b ra rb lt
  have ha := shardIndexForTag_le a shardCount
  have hb := shardIndexForTag_le b shardCount
  rw [UInt64.lt_iff_toNat_lt, shardSortKey_real ra, shardSortKey_real rb]
  omega

theorem shardIndexForTag_two_pow {i : Nat} (hi : i < 32) : shardIndexForTag (UInt64.ofNat (2 ^ (32 + i))) shardCount =
    ((shardCount - 1).testBit i).toNat * 2 ^ i := by
  have word : 2 ^ (32 + i) < 2 ^ 64 := Nat.pow_lt_pow_right Nat.one_lt_two (by omega)
  have high : (UInt64.ofNat (2 ^ (32 + i)) >>> 32).toNat = 2 ^ i := by
    rw [UInt64.toNat_shiftRight, UInt64.toNat_ofNat_of_lt' word]
    change 2 ^ (32 + i) >>> 32 = _
    rw [Nat.shiftRight_eq_div_pow, Nat.pow_add, Nat.mul_div_cancel_left _ (by decide)]
  rw [shardIndexForTag]
  simp only [high]
  rw [Nat.two_pow_and, Nat.mul_comm]

/-- From 65 shards on, two tags can lie against the order of their shards. -/
theorem not_keyOrders (many : 64 < shardCount) (counted : shardCount ≤ 2 ^ 24) : ¬ KeyOrders shardCount (· ≠ 0) := by
  intro orders
  have low : 2 ^ Nat.log2 (shardCount - 1) ≤ shardCount - 1 := Nat.log2_self_le (by omega)
  have high : shardCount - 1 < 2 ^ (Nat.log2 (shardCount - 1) + 1) := Nat.lt_log2_self
  have six : 6 ≤ Nat.log2 (shardCount - 1) := (Nat.le_log2 (by omega)).mpr (by omega)
  have top : Nat.log2 (shardCount - 1) < 24 := (Nat.log2_lt (by omega)).mpr (by omega)
  have set := Nat.testBit_log2 (show shardCount - 1 ≠ 0 by omega)
  generalize Nat.log2 (shardCount - 1) = i at low high six top set
  have clear : (shardCount - 1).testBit (i + 1) = false := Nat.testBit_lt_two_pow high
  have first : shardIndexForTag (UInt64.ofNat (2 ^ (32 + i))) shardCount = 2 ^ i := by
    rw [shardIndexForTag_two_pow (by omega), set, Bool.toNat_true, Nat.one_mul]
  have second : shardIndexForTag (UInt64.ofNat (2 ^ (32 + (i + 1)))) shardCount = 0 := by
    rw [shardIndexForTag_two_pow (by omega), clear, Bool.toNat_false, Nat.zero_mul]
  have value : ∀ j < 25, (UInt64.ofNat (2 ^ (32 + j))).toNat = 2 ^ (32 + j) := fun j hj => by
    have word : 2 ^ (32 + j) < 2 ^ 64 := Nat.pow_lt_pow_right Nat.one_lt_two (by omega)
    exact UInt64.toNat_ofNat_of_lt' word
  have real : ∀ j < 25, UInt64.ofNat (2 ^ (32 + j)) ≠ 0 := fun j hj zero => by
    have zero := congrArg UInt64.toNat zero
    rw [value j hj] at zero
    exact absurd zero (Nat.two_pow_pos _).ne'
  have against := orders _ _ (real (i + 1) (by omega)) (real i (by omega)) (by
    rw [first, second]
    exact Nat.two_pow_pos i)
  have multiple : 2 ^ i % 64 = 0 := by
    obtain ⟨c, hc⟩ := pow_dvd_pow 2 six
    omega
  have double : 2 ^ (32 + (i + 1)) = 2 ^ (32 + i) * 2 := Nat.pow_succ 2 (32 + i)
  have below : 2 ^ (32 + i) < 2 ^ 57 := Nat.pow_lt_pow_right Nat.one_lt_two (by omega)
  have below' : 2 ^ (32 + (i + 1)) < 2 ^ 57 := Nat.pow_lt_pow_right Nat.one_lt_two (by omega)
  have firstKey : (shardSortKey shardCount (UInt64.ofNat (2 ^ (32 + i)))).toNat = 2 ^ (32 + i) := by
    rw [shardSortKey_real (real i (by omega)), first, value i (by omega), multiple, Nat.mod_eq_of_lt below,
      Nat.zero_mul, Nat.zero_add]
  have secondKey : (shardSortKey shardCount (UInt64.ofNat (2 ^ (32 + (i + 1))))).toNat = 2 ^ (32 + (i + 1)) := by
    rw [shardSortKey_real (real (i + 1) (by omega)), second, value (i + 1) (by omega), Nat.mod_eq_of_lt below',
      Nat.zero_mod, Nat.zero_mul, Nat.zero_add]
  rw [UInt64.lt_iff_toNat_lt, firstKey, secondKey, double] at against
  omega

/-- With at most `2 ^ 25` shards the key determines the shard. -/
theorem shardIndexForTag_of_key (counted : shardCount ≤ 2 ^ 25) {a b : UInt64} (ra : a ≠ 0) (rb : b ≠ 0)
    (same : shardSortKey shardCount a = shardSortKey shardCount b) :
    shardIndexForTag a shardCount = shardIndexForTag b shardCount := by
  have keys := congrArg UInt64.toNat same
  rw [shardSortKey_real ra, shardSortKey_real rb] at keys
  have low : a.toNat % 2 ^ 57 = b.toNat % 2 ^ 57 := by omega
  have word : ∀ tag : UInt64, shardIndexForTag tag shardCount = tag.toNat % 2 ^ 57 / 2 ^ 32 &&& (shardCount - 1) := by
    intro tag
    have small : shardIndexForTag tag shardCount < 2 ^ 25 :=
      (shardIndexForTag_le tag shardCount).trans_lt (by omega)
    have mask : (shardCount - 1) % 2 ^ 25 = shardCount - 1 := Nat.mod_eq_of_lt (by omega)
    rw [← Nat.mod_eq_of_lt small, shardIndexForTag, UInt64.toNat_shiftRight]
    change (tag.toNat >>> 32 &&& (shardCount - 1)) % 2 ^ 25 = _
    rw [Nat.and_mod_two_pow, mask, Nat.shiftRight_eq_div_pow]
    congr 1
    omega
  rw [word, word, low]

end Orders

section Delivered
variable [AddCommSemigroup V] {shardCount quota : Nat} {batch : List (OramBlock K V)} {frontend : RouterFrontend K V}

/-- The sum of the values of a payload's real blocks. -/
def payloadSum (p : Vector UInt8 K) (blocks : List (OramBlock K V)) : WithZero V :=
  sumOf (((reals blocks).filter fun b => b.payload = p).map OramBlock.value)

theorem payloadSum_eq (p : Vector UInt8 K) (blocks : List (OramBlock K V)) :
    payloadSum p blocks = (mass (AddHom.id V) p blocks).values := (values_mass p blocks).symm

/-- Every shard's slots hold its own records only, and all slots together every sum. -/
structure Delivered (shardCount quota : Nat) (batch : List (OramBlock K V)) (frontend : RouterFrontend K V) : Prop where
  own : ∀ s < shardCount, ∀ b ∈ bucketAt quota frontend.routerBlocks s, b.isReal = true →
    shardIndexForTag b.tag shardCount = s
  sums : ∀ p, payloadSum p frontend.routerBlocks = payloadSum p batch

variable [Inhabited V]

theorem processSubBatch_sums (run : processSubBatch batch shardCount quota = .ok frontend) (p : Vector UInt8 K) :
    payloadSum p frontend.routerBlocks = payloadSum p batch := by
  obtain ⟨-, -, survivors, -⟩ := processSubBatch_ok run
  rw [payloadSum_eq, payloadSum_eq, ← survivors.mass, mass_reals]

omit [AddCommSemigroup V] [Inhabited V] in
theorem Survivors.ascending_shards [Add V] {xs : List (OramBlock K V)} (survivors : Survivors shardCount batch xs)
    (orders : KeyOrders shardCount fun tag => ∃ b ∈ reals batch, b.tag = tag) :
    xs.Pairwise fun a b => shardIndexForTag a.tag shardCount ≤ shardIndexForTag b.tag shardCount := by
  refine survivors.ascending.imp_of_mem fun {a b} ha hb le => ?_
  by_contra against
  obtain ⟨a', ha', ida⟩ := survivors.known a ha
  obtain ⟨b', hb', idb⟩ := survivors.known b hb
  have lt := orders b.tag a.tag ⟨b', hb', congrArg Prod.fst idb⟩ ⟨a', ha', congrArg Prod.fst ida⟩
    (Nat.lt_of_not_le against)
  exact UInt64.lt_irrefl _ (UInt64.lt_of_lt_of_le lt le)

/-- A batch whose tags the key orders is delivered, each shard's records in its own slots. -/
theorem processSubBatch_delivered (run : processSubBatch batch shardCount quota = .ok frontend)
    (orders : KeyOrders shardCount fun tag => ∃ b ∈ reals batch, b.tag = tag) :
    Delivered shardCount quota batch frontend := by
  obtain ⟨some, -, survivors, slots⟩ := processSubBatch_ok run
  refine ⟨fun s hs b hb real => ?_, processSubBatch_sums run⟩
  have here := mem_reals.mpr ⟨hb, real⟩
  rw [slots s hs, slice_of_ascending (fun b _ => shardIndexForTag_lt b.tag some) (survivors.ascending_shards orders) hs] at here
  exact of_decide_eq_true (List.mem_filter.mp here).2

/-- Delivered records lie in the order of their shards. -/
theorem Delivered.ascending (delivered : Delivered shardCount quota batch frontend)
    (run : processSubBatch batch shardCount quota = .ok frontend) : (reals frontend.routerBlocks).Pairwise fun a b =>
      shardIndexForTag a.tag shardCount ≤ shardIndexForTag b.tag shardCount := by
  obtain ⟨some, -, -, slots⟩ := processSubBatch_ok run
  refine ascending_of_slices (fun b _ => shardIndexForTag_lt b.tag some) fun s hs b hb => ?_
  rw [← slots s hs] at hb
  obtain ⟨hm, real⟩ := mem_reals.mp hb
  exact delivered.own s hs b hm real

omit [AddCommSemigroup V] in
theorem reduceEqualRuns_pair [Add V] {x y : OramBlock K V} (other : y.payload ≠ x.payload) :
    reduceEqualRuns [x, y] = [x, y] := by
  rw [reduceEqualRuns_cons, mergeRuns, if_neg]
  · rfl
  · simp [joins, other]

/-- Two records in the order of the key are handed out in that order. -/
theorem processSubBatch_pair (some : shardCount ≠ 0) {x y : OramBlock K V} (other : y.payload ≠ x.payload)
    (rx : x.isReal = true) (ry : y.isReal = true)
    (le : shardSortKey shardCount x.tag ≤ shardSortKey shardCount y.tag)
    (apart : shardIndexForTag x.tag shardCount ≠ shardIndexForTag y.tag shardCount) :
    ∃ frontend, processSubBatch [x, y] shardCount 1 = .ok frontend ∧ reals frontend.routerBlocks = [x, y] := by
  have real : ∀ c ∈ [x, y], c.isReal = true := by
    simp [rx, ry]
  have reduced : sortReduceCompact [x, y] (fun block => shardSortKey shardCount block.tag) = ([x, y] ++ [], 2) :=
    sortReduceCompact_of_sorted (List.pairwise_pair.mpr le) (reduceEqualRuns_pair other) real
  rcases processSubBatch_run some real (fun _ h => absurd h List.not_mem_nil) reduced with
    ⟨-, done, run, -, ordered, -⟩ | ⟨no, -⟩
  · exact ⟨done, run, ordered⟩
  · refine absurd (fun s _ => ?_) no
    by_cases hx : shardIndexForTag x.tag shardCount = s
    · simp [hx, (hx ▸ apart).symm]
    · simp [List.countP_cons, hx]
      split <;> omega

/-- A key against the order of the shards misdelivers two records of distinct payloads. -/
theorem keyOrders_of_delivered (bytes : 0 < K)
    (all : ∀ (quota : Nat) (batch : List (OramBlock K V)) (frontend : RouterFrontend K V),
      processSubBatch batch shardCount quota = .ok frontend → Delivered shardCount quota batch frontend) :
    KeyOrders shardCount (· ≠ 0) := by
  intro a b ra rb lt
  by_contra against
  have some : shardCount ≠ 0 := by
    have := shardIndexForTag_le b shardCount
    omega
  have other : Vector.replicate K (1 : UInt8) ≠ Vector.replicate K 0 := fun same => by
    have first := congrArg (fun v => v[0]) same
    simp at first
  obtain ⟨done, run, ordered⟩ := @processSubBatch_pair K V _ _ _ some ⟨b, 0, default, Vector.replicate K 0⟩
    ⟨a, 0, default, Vector.replicate K 1⟩ other (OramBlock.isReal_iff.mpr rb) (OramBlock.isReal_iff.mpr ra)
    (UInt64.not_lt.mp against) lt.ne'
  have ascending := (all 1 _ done run).ascending run
  rw [ordered, List.pairwise_pair] at ascending
  exact absurd lt (Nat.not_lt.mpr ascending)

omit [Inhabited V] in
/-- A payload of the batch survives, under its tag. -/
theorem Survivors.exists_copy {xs : List (OramBlock K V)} (survivors : Survivors shardCount batch xs)
    (tags : TagsAgree (reals batch)) {a : OramBlock K V} (ha : a ∈ reals batch) : ∃ b ∈ xs, b.tag = a.tag := by
  have held : Roga.mass (AddHom.id V) a.payload xs ≠ 0 := fun none => by
    rw [survivors.mass] at none
    exact mass_eq_zero.mp none a (mem_reals.mp ha).1 (mem_reals.mp ha).2 rfl
  obtain ⟨b, hb, -, pay⟩ : ∃ b ∈ xs, b.isReal = true ∧ b.payload = a.payload := by
    by_contra none
    exact held (mass_eq_zero.mpr fun b hb hr hp => none ⟨b, hb, hr, hp⟩)
  obtain ⟨c, hc, id⟩ := survivors.known b hb
  obtain ⟨tag, pay'⟩ := Prod.mk.inj id
  exact ⟨b, hb, (show c.tag = b.tag from tag).symm.trans (tags c hc a ha (pay'.trans pay))⟩

/-- A batch of agreeing tags that is delivered was in the order of the key. -/
theorem keyOrders_of_delivered_batch (counted : shardCount ≤ 2 ^ 25) (tags : TagsAgree (reals batch))
    (run : processSubBatch batch shardCount quota = .ok frontend)
    (delivered : Delivered shardCount quota batch frontend) :
    KeyOrders shardCount fun tag => ∃ b ∈ reals batch, b.tag = tag := by
  obtain ⟨-, -, survivors, -⟩ := processSubBatch_ok run
  have ascending := delivered.ascending run
  rintro - - ⟨a, ha, rfl⟩ ⟨b, hb, rfl⟩ lt
  obtain ⟨a', ha', sameA⟩ := survivors.exists_copy tags ha
  obtain ⟨b', hb', sameB⟩ := survivors.exists_copy tags hb
  rw [← sameA, ← sameB] at lt ⊢
  obtain ⟨i, hi, rfl⟩ := List.getElem_of_mem ha'
  obtain ⟨j, hj, rfl⟩ := List.getElem_of_mem hb'
  have before : i < j := by
    by_contra after
    rcases Nat.lt_or_eq_of_le (Nat.le_of_not_lt after) with gt | rfl
    · exact absurd lt (Nat.not_lt.mpr (List.pairwise_iff_getElem.mp ascending j i hj hi gt))
    · exact absurd lt (lt_irrefl _)
  have le := List.pairwise_iff_getElem.mp survivors.ascending i j hi hj before
  rcases UInt64.lt_or_eq_of_le le with less | same
  · exact less
  · have equal := shardIndexForTag_of_key counted (OramBlock.isReal_iff.mp (survivors.real _ ha'))
      (OramBlock.isReal_iff.mp (survivors.real _ hb')) same
    exact absurd lt equal.not_lt

end Delivered

section Claim
variable [AddCommSemigroup V] [Inhabited V]

/-- The router delivers a batch when the sort key orders its tags by shard, and for tags that agree
and up to `2 ^ 25` shards exactly then. It delivers every batch exactly when the key orders all tags,
which up to `2 ^ 24` shards means that there are at most 64. -/
theorem processSubBatch_delivers (shardCount : Nat) :
    (∀ quota (batch : List (OramBlock K V)) frontend, processSubBatch batch shardCount quota = .ok frontend →
      (KeyOrders shardCount (fun tag => ∃ b ∈ reals batch, b.tag = tag) →
        Delivered shardCount quota batch frontend) ∧
      (shardCount ≤ 2 ^ 25 → TagsAgree (reals batch) → Delivered shardCount quota batch frontend →
        KeyOrders shardCount fun tag => ∃ b ∈ reals batch, b.tag = tag)) ∧
    (0 < K → ((∀ quota (batch : List (OramBlock K V)) frontend, processSubBatch batch shardCount quota = .ok frontend →
      Delivered shardCount quota batch frontend) ↔ KeyOrders shardCount (· ≠ 0))) ∧
    (shardCount ≤ 2 ^ 24 → (KeyOrders shardCount (· ≠ 0) ↔ shardCount ≤ 64)) := by
  refine ⟨fun quota batch frontend run => ⟨processSubBatch_delivered run, fun counted tags =>
    keyOrders_of_delivered_batch counted tags run⟩, fun bytes => ⟨keyOrders_of_delivered bytes, ?_⟩, fun counted => ?_⟩
  · rintro orders quota batch frontend run
    refine processSubBatch_delivered run ?_
    rintro - - ⟨a, ha, rfl⟩ ⟨b, hb, rfl⟩
    exact orders a.tag b.tag (OramBlock.isReal_iff.mp (mem_reals.mp ha).2) (OramBlock.isReal_iff.mp (mem_reals.mp hb).2)
  · refine ⟨fun orders => ?_, keyOrders_of_le⟩
    by_contra many
    exact not_keyOrders (Nat.lt_of_not_le many) counted orders

theorem processSubBatch_delivers_four : ∃ frontend : RouterFrontend 1 Nat,
    processSubBatch [⟨0x300000000, 0, 5, #v[1]⟩, ⟨0x100000000, 0, 7, #v[2]⟩] 4 1 = .ok frontend ∧
      Delivered 4 1 [⟨0x300000000, 0, 5, #v[1]⟩, ⟨0x100000000, 0, 7, #v[2]⟩] frontend := by
  have run : (processSubBatch [⟨0x300000000, 0, 5, #v[1]⟩, ⟨0x100000000, 0, 7, #v[2]⟩] 4 1 :
    Except Panic (RouterFrontend 1 Nat)).toBool = true := by decide +kernel
  obtain ⟨frontend, run⟩ := exists_of_toBool run
  have delivers := processSubBatch_delivers (K := 1) (V := Nat) 4
  exact ⟨frontend, run, (delivers.2.1 (by decide)).mpr ((delivers.2.2 (by decide)).mpr (by decide)) _ _ _ run⟩

/-- With 65 shards a record of shard 64 lands in the slot of shard 0. -/
theorem processSubBatch_misdelivers : ∃ frontend : RouterFrontend 1 Nat,
    processSubBatch [⟨0x4000000000, 0, 5, #v[1]⟩, ⟨0x8000000000, 0, 7, #v[2]⟩] 65 1 = .ok frontend ∧
      ¬ Delivered 65 1 [⟨0x4000000000, 0, 5, #v[1]⟩, ⟨0x8000000000, 0, 7, #v[2]⟩] frontend := by
  have run : ((processSubBatch [⟨0x4000000000, 0, 5, #v[1]⟩, ⟨0x8000000000, 0, 7, #v[2]⟩] 65 1 :
    Except Panic (RouterFrontend 1 Nat)).toOption.bind fun frontend => frontend.routerBlocks[0]?) =
      some ⟨0x4000000000, 0, 5, #v[1]⟩ := by decide +kernel
  obtain ⟨frontend, run, first⟩ := Option.bind_eq_some_iff.mp run
  refine ⟨frontend, eq_ok_of_toOption run, fun delivered => ?_⟩
  have held : (⟨0x4000000000, 0, 5, #v[1]⟩ : OramBlock 1 Nat) ∈ bucketAt 1 frontend.routerBlocks 0 := by
    have slot : (bucketAt 1 frontend.routerBlocks 0)[0]? = some ⟨0x4000000000, 0, 5, #v[1]⟩ := by
      rw [bucketAt_getElem?, if_pos Nat.one_pos]
      exact first
    exact List.mem_of_getElem? slot
  exact absurd (delivered.own 0 (by decide) _ held (by decide)) (by decide)

end Claim
end Roga
