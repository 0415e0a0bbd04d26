import Roga.Oblivious.MergeProofs

/-! The networks sort every slice, and every run of them is a replay of one list of
accesses that depends on the length alone and stays inside the slice. -/
namespace Roga.Djbsort
open Network
variable {P σ τ : Type}

/-- `greater` decides the strict part of the total preorder `le`. -/
structure StrictPart (greater : P → P → UInt8) (le : P → P → Prop) : Prop where
  total : ∀ a b, le a b ∨ le b a
  trans : ∀ a b c, le a b → le b c → le a c
  strict : ∀ a b, greater a b ≠ 0 ↔ ¬ le a b

section Order
variable {greater : P → P → UInt8} {le : P → P → Prop}

theorem StrictPart.gt_iff (part : StrictPart greater le) (a b : P) : gt greater a b = true ↔ ¬ le a b := by
  rw [← part.strict, gt, bne_iff_ne]

theorem StrictPart.not_gt_iff (part : StrictPart greater le) (a b : P) : gt greater a b = false ↔ le a b := by
  rw [← Bool.not_eq_true, part.gt_iff, not_not]

theorem StrictPart.weakOrder (part : StrictPart greater le) : WeakOrder (gt greater) where
  asymm := by
    intro a b above
    apply (part.not_gt_iff b a).mpr
    exact (part.total a b).resolve_left ((part.gt_iff a b).mp above)
  cotrans := by
    intro a b c above
    by_contra neither
    obtain ⟨left, right⟩ := not_or.mp neither
    rw [part.gt_iff, not_not] at left right
    exact (part.gt_iff a b).mp above (part.trans a c b left right)

theorem StrictPart.sorted_iff (part : StrictPart greater le) {xs : List P} :
    (xs.Pairwise fun a b => gt greater a b = false) ↔ xs.Pairwise le :=
  ⟨fun sorted => sorted.imp fun {a b} => (part.not_gt_iff a b).mp,
    fun sorted => sorted.imp fun {a b} => (part.not_gt_iff a b).mpr⟩

end Order

/-- Both networks sort: `sort_by` any slice under any total preorder, and
`sort_with_payload` any two slices of one length by their keys. -/
theorem networks_sort :
    (∀ (greater : P → P → UInt8) (le : P → P → Prop), StrictPart greater le →
      ∀ xs, (sortBy xs greater).Perm xs ∧ (sortBy xs greater).Pairwise le) ∧
    ∀ (keys : List UInt64) (payloads : List P), keys.length = payloads.length →
      (sortWithPayload keys payloads).1.length = (sortWithPayload keys payloads).2.length ∧
      (sortWithPayload keys payloads).1.Pairwise (· ≤ ·) ∧
      ((sortWithPayload keys payloads).1.zip (sortWithPayload keys payloads).2).Perm (keys.zip payloads) := by
  constructor
  · intro greater le part xs
    exact ⟨sortBy_perm xs greater, part.sorted_iff.mp (sortBy_sorted part.weakOrder xs)⟩
  · intro keys payloads len
    obtain ⟨xs, perm, ascending, run⟩ := sortWithPayload_spec len
    rw [run]
    refine ⟨by rw [List.length_map, List.length_map], List.pairwise_map.mpr ascending, ?_⟩
    rw [List.zip_map', show (fun x : UInt64 × P => (x.1, x.2)) = id from rfl, List.map_id]
    exact perm

/-- The order of numbers, as a comparator byte. -/
def natGreater (a b : Nat) : UInt8 := (decide (b < a)).toUInt8

theorem natGreater_part : StrictPart natGreater (· ≤ ·) where
  total := Nat.le_total
  trans _ _ _ := Nat.le_trans
  strict a b := by
    rw [natGreater, Ne, Ct.toUInt8_eq_zero, decide_eq_false_iff_not, not_not, Nat.not_le]

theorem networks_sort_four : (sortBy [3, 1, 2, 1] natGreater).Pairwise (· ≤ ·) :=
  (networks_sort.1 natGreater (· ≤ ·) natGreater_part [3, 1, 2, 1]).2

section Accesses

/-- Slot operations that keep two states related. -/
structure SlotOps.Related (R : σ → τ → Prop) (ops : SlotOps σ) (ops' : SlotOps τ) : Prop where
  minmax : ∀ i j s t, R s t → R (ops.minmax i j s) (ops'.minmax i j t)
  cascade : ∀ j p q s t, R s t → R (ops.cascade j p q s) (ops'.cascade j p q t)
  spin : ∀ s t, R s t → R (ops.spin s) (ops'.spin t)

section Loops
variable {R : σ → τ → Prop} {ops : SlotOps σ} {ops' : SlotOps τ} (related : ops.Related R ops')
include related

theorem minmaxBlocks_related (n p i : Nat) {s : σ} {t : τ} (h : R s t) :
    (minmaxBlocks ops n p i s).1 = (minmaxBlocks ops' n p i t).1 ∧
      R (minmaxBlocks ops n p i s).2 (minmaxBlocks ops' n p i t).2 := by
  induction hk : n - i using Nat.strong_induction_on generalizing i s t with
  | _ k ih =>
    rw [minmaxBlocks.eq_def ops, minmaxBlocks.eq_def ops']
    split
    · exact ih _ (by omega) (i + 2 * p) (List.foldl_rel h fun k _ _ _ h => related.minmax _ _ _ _ h) rfl
    · exact ⟨rfl, h⟩

theorem minmaxTail_related (n p j : Nat) {s : σ} {t : τ} (h : R s t) :
    R (minmaxTail ops n p j s) (minmaxTail ops' n p j t) := by
  induction hk : n - j using Nat.strong_induction_on generalizing j s t with
  | _ k ih =>
    rw [minmaxTail.eq_def ops, minmaxTail.eq_def ops']
    split
    · exact ih _ (by omega) (j + 1) (related.minmax _ _ _ _ h) rfl
    · exact h

/-- The control of the inner loop does not look at the state. -/
theorem finishBlock_related (n p i j q : Nat) {s : σ} {t : τ} (h : R s t) :
    (finishBlock ops n p i j q s).1 = (finishBlock ops' n p i j q t).1 ∧
      (finishBlock ops n p i j q s).2.2.1 = (finishBlock ops' n p i j q t).2.2.1 ∧
      R (finishBlock ops n p i j q s).2.2.2 (finishBlock ops' n p i j q t).2.2.2 := by
  fun_induction finishBlock ops n p i j q s generalizing t with
  | case1 j s at_end =>
    rw [finishBlock.eq_def ops', if_pos at_end, if_pos rfl]
    exact ⟨rfl, rfl, related.spin _ _ h⟩
  | case2 j q s at_end some ih =>
    rw [finishBlock.eq_def ops', if_pos at_end, if_neg some]
    exact ih h
  | case3 j q s inside next =>
    rename_i last
    rw [finishBlock.eq_def ops', if_neg inside]
    simp only [if_pos last]
    exact ⟨trivial, trivial, related.cascade _ _ _ _ _ h⟩
  | case4 j q s inside next last more =>
    rename_i ih
    rw [finishBlock.eq_def ops', if_neg inside]
    simp only [if_neg last, if_pos more]
    exact ih (related.cascade _ _ _ _ _ h)
  | case5 j q s inside next last =>
    rename_i past
    rw [finishBlock.eq_def ops', if_neg inside]
    simp only [if_neg last, if_neg past]
    exact ⟨trivial, trivial, related.spin _ _ (related.cascade _ _ _ _ _ h)⟩

theorem cascadeBlocks_related (n p i q : Nat) {s : σ} {t : τ} (h : R s t) :
    (cascadeBlocks ops n p i q s).1 = (cascadeBlocks ops' n p i q t).1 ∧
      R (cascadeBlocks ops n p i q s).2 (cascadeBlocks ops' n p i q t).2 := by
  induction hk : n - i using Nat.strong_induction_on generalizing i s t with
  | _ k ih =>
    rw [cascadeBlocks.eq_def ops, cascadeBlocks.eq_def ops']
    split
    · exact ih _ (by omega) (i + 2 * p) (List.foldl_rel h fun k _ _ _ h => related.cascade _ _ _ _ _ h) rfl
    · exact ⟨rfl, h⟩

theorem cascadeTail_related (n p j q : Nat) {s : σ} {t : τ} (h : R s t) :
    (cascadeTail ops n p j q s).1 = (cascadeTail ops' n p j q t).1 ∧
      R (cascadeTail ops n p j q s).2 (cascadeTail ops' n p j q t).2 := by
  induction hk : n - j using Nat.strong_induction_on generalizing j s t with
  | _ k ih =>
    rw [cascadeTail.eq_def ops, cascadeTail.eq_def ops']
    split
    · exact ih _ (by omega) (j + 1) (related.cascade _ _ _ _ _ h) rfl
    · exact ⟨rfl, h⟩

theorem qLoop_related (n p i j q : Nat) {s : σ} {t : τ} (h : R s t) :
    R (qLoop ops n p i j q s) (qLoop ops' n p i j q t) := by
  induction q using Nat.strong_induction_on generalizing i j s t with
  | _ q ih =>
    have round : ∀ i q' s t, q' ≤ q → p < q' → R s t →
        R (qLoop ops n p (cascadeBlocks ops n p i q' s).1
            (cascadeTail ops n p (cascadeBlocks ops n p i q' s).1 q' (cascadeBlocks ops n p i q' s).2).1 (q' / 2)
            (cascadeTail ops n p (cascadeBlocks ops n p i q' s).1 q' (cascadeBlocks ops n p i q' s).2).2)
          (qLoop ops' n p (cascadeBlocks ops' n p i q' t).1
            (cascadeTail ops' n p (cascadeBlocks ops' n p i q' t).1 q' (cascadeBlocks ops' n p i q' t).2).1 (q' / 2)
            (cascadeTail ops' n p (cascadeBlocks ops' n p i q' t).1 q' (cascadeBlocks ops' n p i q' t).2).2) := by
      intro i q' s t le large h
      obtain ⟨same, blocks⟩ := cascadeBlocks_related related n p i q' h
      obtain ⟨same', tail⟩ := cascadeTail_related related n p (cascadeBlocks ops' n p i q' t).1 q' blocks
      rw [same, same']
      exact ih _ (by omega) _ _ tail
    rw [qLoop.eq_def ops, qLoop.eq_def ops']
    split
    · rename_i large
      split
      · obtain ⟨same, sameQ, finished⟩ := finishBlock_related related n p i j q h
        simp only [same, sameQ]
        split
        · exact finished
        · have le := finishBlock_q_le ops' n p i j q t
          exact round _ _ _ _ le (by omega) finished
      · exact round i q s t le_rfl large h
    · exact h

theorem pLoop_related (n top p : Nat) {s : σ} {t : τ} (h : R s t) :
    R (pLoop ops n top p s) (pLoop ops' n top p t) := by
  induction p using Nat.strong_induction_on generalizing s t with
  | _ p ih =>
    rw [pLoop.eq_def ops, pLoop.eq_def ops']
    split
    · obtain ⟨same, blocks⟩ := minmaxBlocks_related related n p 0 h
      simp only [same]
      exact ih _ (Nat.div_lt_self (by omega) (by decide))
        (qLoop_related related _ _ _ _ _ (minmaxTail_related related _ _ _ blocks))
    · exact h

theorem network_related (n : Nat) {s : σ} {t : τ} (h : R s t) : R (network ops n s) (network ops' n t) := by
  unfold network
  split
  · exact h
  · exact pLoop_related related _ _ _ h

end Loops

/-- One slot operation of a run. -/
inductive SlotAccess
  | minmax (i j : Nat)
  | cascade (j p q : Nat)
  | spin

/-- The slots an operation dereferences: `j + p` and every `j + r` of a cascade. -/
def SlotAccess.slots : SlotAccess → List Nat
  | .minmax i j => [i, j]
  | .cascade j p q => (j + p) :: (descend p q).map (j + ·)
  | .spin => []

def SlotOps.perform (ops : SlotOps σ) : SlotAccess → σ → σ
  | .minmax i j => ops.minmax i j
  | .cascade j p q => ops.cascade j p q
  | .spin => ops.spin

/-- The operations write down what they are asked for. -/
def recordOps : SlotOps (List SlotAccess) where
  minmax i j accesses := accesses ++ [.minmax i j]
  cascade j p q accesses := accesses ++ [.cascade j p q]
  spin accesses := accesses ++ [.spin]

/-- What a run of the network on `n` slots does, in order. -/
def accesses (n : Nat) : List SlotAccess := network recordOps n []

/-- Every run is the replay of the same accesses. -/
theorem network_replay (ops : SlotOps σ) (n : Nat) (s : σ) :
    network ops n s = (accesses n).foldl (fun s access => ops.perform access s) s := by
  have related : ops.Related (fun t accesses => t = accesses.foldl (fun s access => ops.perform access s) s)
      recordOps := by
    constructor
    · intro i j t accesses h
      rw [h, recordOps, List.foldl_append]
      rfl
    · intro j p q t accesses h
      rw [h, recordOps, List.foldl_append]
      rfl
    · intro t accesses h
      rw [h, recordOps, List.foldl_append]
      rfl
  exact network_related related n rfl

/-- What an access owes: its slots are in the slice, and neither stride has reached zero. -/
def SlotAccess.Safe (n : Nat) (access : SlotAccess) : Prop :=
  access ≠ .spin ∧ (∀ i ∈ access.slots, i < n) ∧ ∀ j p q, access = .cascade j p q → 0 < p ∧ 0 < q

/-- The longest cascade of a wire stays inside when its partner does. -/
theorem reach_inside {n j p : Nat} (hp : 0 < p) (inside : j + p < n) (d : Nat) :
    0 < reach n j (p * 2 ^ d) ∧ j + reach n j (p * 2 ^ d) < n := by
  induction d with
  | zero =>
    rw [Nat.pow_zero, Nat.mul_one, reach, if_pos (.inr inside)]
    exact ⟨hp, inside⟩
  | succ d ih =>
    have pos : 0 < p * 2 ^ (d + 1) := Nat.mul_pos hp (Nat.two_pow_pos _)
    rw [reach]
    split
    · exact ⟨pos, by omega⟩
    · have half : p * 2 ^ (d + 1) / 2 = p * 2 ^ d := by
        rw [Nat.pow_succ, ← Nat.mul_assoc, Nat.mul_div_cancel _ Nat.two_pos]
      rw [half]
      exact ih

/-- No access of a run leaves the slice, and no inner loop spins. -/
theorem accesses_safe {n : Nat} (hn : 2 ≤ n) : ∀ access ∈ accesses n, access.Safe n := by
  obtain ⟨t, J₁, J₂, -, -, -, inside, run⟩ := network_spec recordOps hn []
  have safe_append : ∀ {accesses : List SlotAccess} {access : SlotAccess}, (∀ a ∈ accesses, a.Safe n) →
      access.Safe n → ∀ a ∈ accesses ++ [access], a.Safe n := by
    intro accesses access all safe a ha
    rcases List.mem_append.mp ha with ha | ha
    · exact all a ha
    · exact List.mem_singleton.mp ha ▸ safe
  rw [accesses, run, runPasses]
  refine List.foldlRecOn (motive := fun accesses : List SlotAccess => ∀ a ∈ accesses, a.Safe n) _ _ (by simp) fun s hs p hp => ?_
  obtain ⟨e, he, rfl⟩ := mem_descend_zero hp
  have pos : 0 < 2 ^ e := Nat.two_pow_pos e
  refine List.foldlRecOn (motive := fun accesses : List SlotAccess => ∀ a ∈ accesses, a.Safe n) _ _ ?_ fun s hs j hj => ?_
  · refine List.foldlRecOn (motive := fun accesses : List SlotAccess => ∀ a ∈ accesses, a.Safe n) _ _ hs fun s hs j hj => ?_
    have fits := (inside e he).1 j hj
    apply safe_append hs
    refine ⟨nofun, fun i hi => ?_, nofun⟩
    rcases List.mem_pair.mp hi with rfl | rfl
    · omega
    · exact fits
  · have fits := (inside e he).2 j hj
    obtain ⟨d, rfl⟩ := Nat.exists_eq_add_of_le he
    obtain ⟨positive, farthest⟩ := reach_inside pos fits d
    rw [← Nat.pow_add] at positive farthest
    apply safe_append hs
    refine ⟨nofun, fun i hi => ?_, fun j' p q same => ?_⟩
    · rcases List.mem_cons.mp hi with rfl | hi
      · exact fits
      · obtain ⟨r, hr, rfl⟩ := List.mem_map.mp hi
        exact (Nat.add_le_add_left (le_of_mem_descend hr) j).trans_lt farthest
    · cases same
      exact ⟨pos, positive⟩

/-- Both sorts replay accesses that stay inside the slice; the inner loop, whose `q` would
have to reach zero or whose `j` would have to leave its block for it to go on for ever, never spins. -/
theorem networks_in_bounds {n : Nat} (hn : 2 ≤ n) :
    (∀ access ∈ accesses n, access ≠ .spin ∧ (∀ i ∈ access.slots, i < n) ∧
      ∀ j p q, access = .cascade j p q → 0 < p ∧ 0 < q) ∧
    (∀ (greater : P → P → UInt8) (xs : List P), xs.length = n →
      sortBy xs greater = (accesses n).foldl (fun xs access => (byOps greater).perform access xs) xs) ∧
    ∀ (keys : List UInt64) (payloads : List P), keys.length = n → payloads.length = n →
      sortWithPayload keys payloads =
        (accesses n).foldl (fun s access => withPayloadOps.perform access s) (keys, payloads) := by
  refine ⟨accesses_safe hn, fun greater xs len => ?_, fun keys payloads len _ => ?_⟩
  · rw [sortBy, len]
    exact network_replay _ n xs
  · rw [sortWithPayload, len]
    exact network_replay _ n (keys, payloads)

theorem networks_in_bounds_three : sortBy [3, 1, 2] natGreater =
    (accesses 3).foldl (fun xs access => (byOps natGreater).perform access xs) [3, 1, 2] :=
  (networks_in_bounds (by decide : 2 ≤ 3)).2.1 _ [3, 1, 2] rfl

end Accesses

section Merge

/-- The comparators of the odd-even merge, in order. -/
def mergeComparators (firstStart firstStride firstLen secondStart secondStride secondLen : Nat) : List (Nat × Nat) :=
  if firstLen = 0 ∨ secondLen = 0 then []
  else if firstLen = 1 ∧ secondLen = 1 then [(firstStart, secondStart)]
  else
    let firstOddLen := (firstLen + 1) / 2
    let secondOddLen := (secondLen + 1) / 2
    let firstEvenLen := firstLen / 2
    let secondEvenLen := secondLen / 2
    mergeComparators firstStart (firstStride * 2) firstOddLen secondStart (secondStride * 2) secondOddLen ++
      mergeComparators (firstStart + firstStride) (firstStride * 2) firstEvenLen
        (secondStart + secondStride) (secondStride * 2) secondEvenLen ++
      (List.range (min (firstEvenLen + secondEvenLen) (firstOddLen + secondOddLen - 1))).map fun i =>
        (concatWire (firstStart + firstStride) (firstStride * 2) firstEvenLen
          (secondStart + secondStride) (secondStride * 2) i,
        concatWire firstStart (firstStride * 2) firstOddLen secondStart (secondStride * 2) (i + 1))
  termination_by firstLen + secondLen
  decreasing_by all_goals omega

/-- The merge runs its comparators and touches nothing else. -/
theorem oddEvenMergeByRaw_replay (greater : P → P → UInt8) (first stride len second stride' len' : Nat) (xs : List P) :
    oddEvenMergeByRaw greater first stride len second stride' len' xs =
      (mergeComparators first stride len second stride' len').foldl (fun xs c => minmaxByRaw greater c.1 c.2 xs) xs := by
  fun_induction mergeComparators first stride len second stride' len' generalizing xs with
  | case1 _ _ _ _ _ _ none => rw [oddEvenMergeByRaw, if_pos none]; rfl
  | case2 _ _ _ _ _ _ some single => rw [oddEvenMergeByRaw, if_neg some, if_pos single]; rfl
  | case3 first stride len second stride' len' some many _ _ _ _ odd even =>
    rw [oddEvenMergeByRaw, if_neg some, if_neg many, List.foldl_append, List.foldl_append, ← odd, ← even,
      List.foldl_map]

/-- A wire of one of the two runs. -/
def OnRuns (first len second len' stride w : Nat) : Prop :=
  (∃ k < len, w = first + k * stride) ∨ ∃ k < len', w = second + k * stride

theorem concatWire_onRuns {first len second len' stride k : Nat} (hk : k < len + len') :
    OnRuns first len second len' stride (concatWire first stride len second stride k) := by
  rw [concatWire]
  split
  · rename_i inside
    exact .inl ⟨k, inside, rfl⟩
  · exact .inr ⟨k - len, by omega, rfl⟩

theorem OnRuns.odd {first len second len' stride w : Nat}
    (on : OnRuns first ((len + 1) / 2) second ((len' + 1) / 2) (stride * 2) w) :
    OnRuns first len second len' stride w := by
  rcases on with ⟨k, hk, rfl⟩ | ⟨k, hk, rfl⟩
  · exact .inl ⟨2 * k, by omega, by ring⟩
  · exact .inr ⟨2 * k, by omega, by ring⟩

theorem OnRuns.even {first len second len' stride w : Nat}
    (on : OnRuns (first + stride) (len / 2) (second + stride) (len' / 2) (stride * 2) w) :
    OnRuns first len second len' stride w := by
  rcases on with ⟨k, hk, rfl⟩ | ⟨k, hk, rfl⟩
  · exact .inl ⟨2 * k + 1, by omega, by ring⟩
  · exact .inr ⟨2 * k + 1, by omega, by ring⟩

/-- Every comparator joins wires of the two runs, at any depth of the recursion. -/
theorem mergeComparators_onRuns (first len second len' stride : Nat) :
    ∀ c ∈ mergeComparators first stride len second stride len',
      OnRuns first len second len' stride c.1 ∧ OnRuns first len second len' stride c.2 := by
  induction size : len + len' using Nat.strong_induction_on generalizing first len second len' stride with
  | _ size' ih =>
    intro c hc
    rw [mergeComparators] at hc
    split at hc
    · simp at hc
    rename_i some
    split at hc
    · rename_i single
      rw [List.mem_singleton.mp hc]
      exact ⟨.inl ⟨0, by omega, by ring⟩, .inr ⟨0, by omega, by ring⟩⟩
    rename_i many
    rcases List.mem_append.mp hc with hc | hc
    · rcases List.mem_append.mp hc with hc | hc
      · obtain ⟨left, right⟩ := ih _ (by omega) first _ second _ (stride * 2) rfl c hc
        exact ⟨left.odd, right.odd⟩
      · obtain ⟨left, right⟩ := ih _ (by omega) (first + stride) _ (second + stride) _ (stride * 2) rfl c hc
        exact ⟨left.even, right.even⟩
    · obtain ⟨i, hi, rfl⟩ := List.mem_map.mp hc
      have below := List.mem_range.mp hi
      exact ⟨(concatWire_onRuns (by omega)).even, (concatWire_onRuns (by omega)).odd⟩

/-- Two adjacent sorted runs of power-of-two lengths are merged in place, by comparators inside them. -/
theorem mergeSortedBy_merges {greater : P → P → UInt8} {le : P → P → Prop} (part : StrictPart greater le) {x y : Nat}
    (longer : y ≤ x) {xs : List P} (size : xs.length = 2 ^ x + 2 ^ y) (first : (xs.take (2 ^ x)).Pairwise le)
    (second : (xs.drop (2 ^ x)).Pairwise le) :
    (mergeSortedBy xs (2 ^ x) greater).Perm xs ∧ (mergeSortedBy xs (2 ^ x) greater).Pairwise le ∧
    mergeSortedBy xs (2 ^ x) greater =
      (mergeComparators 0 1 (2 ^ x) (2 ^ x) 1 (2 ^ y)).foldl (fun xs c => minmaxByRaw greater c.1 c.2 xs) xs ∧
    ∀ c ∈ mergeComparators 0 1 (2 ^ x) (2 ^ x) 1 (2 ^ y), c.1 < 2 ^ x + 2 ^ y ∧ c.2 < 2 ^ x + 2 ^ y := by
  have pos : 0 < 2 ^ x := Nat.two_pow_pos x
  have pos' : 0 < 2 ^ y := Nat.two_pow_pos y
  have short : 2 ^ y ≤ 2 ^ x := Nat.pow_le_pow_right Nat.two_pos longer
  refine ⟨mergeSortedBy_perm xs _ greater, ?_, ?_, ?_⟩
  · have len : (xs.take (2 ^ x)).length = 2 ^ x := by rw [List.length_take]; omega
    have len' : (xs.drop (2 ^ x)).length = 2 ^ y := by rw [List.length_drop]; omega
    have sorted := mergeSortedBy_sorted part.weakOrder len (by omega) (.inr ⟨y, len'⟩) (part.sorted_iff.mpr first)
      (part.sorted_iff.mpr second)
    rw [List.take_append_drop, len] at sorted
    exact part.sorted_iff.mp sorted
  · have rest : xs.length - 2 ^ x = 2 ^ y := by omega
    rw [mergeSortedBy, rest]
    simp only [if_neg (show ¬ (2 ^ x = 0 ∨ 2 ^ y = 0) by omega)]
    exact oddEvenMergeByRaw_replay greater _ _ _ _ _ _ xs
  · intro c hc
    have inside : ∀ {w}, OnRuns 0 (2 ^ x) (2 ^ x) (2 ^ y) 1 w → w < 2 ^ x + 2 ^ y := by
      rintro w (⟨k, hk, rfl⟩ | ⟨k, hk, rfl⟩) <;> omega
    obtain ⟨left, right⟩ := mergeComparators_onRuns 0 (2 ^ x) (2 ^ x) (2 ^ y) 1 c hc
    exact ⟨inside left, inside right⟩

theorem mergeSortedBy_merges_three : (mergeSortedBy [1, 4, 3] 2 natGreater).Pairwise (· ≤ ·) :=
  (mergeSortedBy_merges natGreater_part (by decide : 0 ≤ 1) (by decide : [1, 4, 3].length = 2 ^ 1 + 2 ^ 0) (by decide)
    (by decide)).2.1

end Merge
end Roga.Djbsort
