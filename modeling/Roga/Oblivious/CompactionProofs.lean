import Roga.Oblivious.Compaction
import Roga.Oblivious.DjbsortProofs

/-! Compaction moves the marked elements to the front in order, and
distribution undoes it. Marks are the running counts of a list of flags. -/
namespace Roga
open Ct Reals
variable {T : Type}

/-- Prefix sums of flags from an offset. -/
def marksFrom (c : Nat) (bs : List Bool) : List Nat := c :: runningMarks c (bs.map Bool.toUInt8)

/-- The number of set flags before a position. -/
def rankOf (bs : List Bool) (i : Nat) : Nat := (bs.take i).count true

theorem marksFrom_cons (c : Nat) (b : Bool) (bs : List Bool) :
    marksFrom c (b :: bs) = c :: marksFrom (c + b.toNat) bs := by
  simp [marksFrom, runningMarks]

theorem rankOf_succ_cons (b : Bool) (bs : List Bool) (i : Nat) :
    rankOf (b :: bs) (i + 1) = b.toNat + rankOf bs i := by
  cases b <;> simp [rankOf, Nat.add_comm]

theorem marksFrom_getD {c k : Nat} {bs : List Bool} (hk : k ≤ bs.length) :
    (marksFrom c bs).getD k 0 = c + rankOf bs k := by
  induction bs generalizing c k with
  | nil =>
    obtain rfl : k = 0 := by simpa using hk
    rfl
  | cons b bs ih =>
    cases k with
    | zero => rfl
    | succ k =>
      rw [marksFrom_cons, List.getD_cons_succ, ih (by simpa using hk), rankOf_succ_cons, Nat.add_assoc]

theorem marksFrom_take (c k : Nat) (bs : List Bool) :
    (marksFrom c bs).take (k + 1) = marksFrom c (bs.take k) := by
  induction bs generalizing c k with
  | nil => simp [marksFrom, runningMarks]
  | cons b bs ih =>
    cases k with
    | zero => simp [marksFrom, runningMarks]
    | succ k => rw [marksFrom_cons, List.take_succ_cons, ih, List.take_succ_cons, marksFrom_cons]

theorem marksFrom_drop {c k : Nat} {bs : List Bool} (hk : k ≤ bs.length) :
    (marksFrom c bs).drop k = marksFrom (c + rankOf bs k) (bs.drop k) := by
  induction bs generalizing c k with
  | nil =>
    obtain rfl : k = 0 := by simpa using hk
    rfl
  | cons b bs ih =>
    cases k with
    | zero => rfl
    | succ k =>
      rw [marksFrom_cons, List.drop_succ_cons, ih (by simpa using hk), List.drop_succ_cons,
        rankOf_succ_cons, Nat.add_assoc]

theorem rankOf_le (bs : List Bool) (i : Nat) : rankOf bs i ≤ i :=
  List.count_le_length.trans (List.length_take_le _ _)

theorem rankOf_add (bs : List Bool) (i j : Nat) :
    rankOf bs (i + j) = rankOf bs i + rankOf (bs.drop i) j := by
  rw [rankOf, List.take_add, List.count_append]
  rfl

theorem rankOf_lt {bs : List Bool} {i k : Nat} (hi : bs[i]? = some true) (hik : i < k) :
    rankOf bs i < rankOf bs k := by
  obtain ⟨d, rfl⟩ := Nat.exists_eq_add_of_lt hik
  have tail : (bs.drop i)[0]? = some true := by simpa using hi
  rw [Nat.add_assoc, rankOf_add]
  generalize bs.drop i = cs at tail
  match cs, tail with
  | true :: cs, _ =>
    rw [rankOf_succ_cons]
    exact Nat.lt_add_of_pos_right (Nat.add_pos_left Nat.one_pos _)

/-- The marks before `k`, as the networks read them off the payload. -/
theorem marksFrom_sub {c k : Nat} {bs : List Bool} (hk : k ≤ bs.length) :
    (marksFrom c bs).getD k 0 - (marksFrom c bs).getD 0 0 = rankOf bs k := by
  rw [marksFrom_getD hk, marksFrom_getD (Nat.zero_le _), Nat.add_sub_add_left]
  exact Nat.sub_zero _

theorem rankOf_drop_lt {bs : List Bool} {k i : Nat} (hi : bs[k + i]? = some true) :
    rankOf (bs.drop k) i < bs.length - k := by
  have bound := (List.getElem?_eq_some_iff.mp hi).1
  exact (rankOf_le _ _).trans_lt (by omega)

theorem rankOf_take {bs : List Bool} {i k : Nat} (h : i ≤ k) : rankOf (bs.take k) i = rankOf bs i := by
  rw [rankOf, List.take_take, Nat.min_eq_left h]
  rfl

section Swaps

theorem cswapFast_perm (arr : List T) (i j : Nat) (choice : Bool) :
    (cswapFast arr i j choice).Perm arr :=
  Network.swap_perm arr i j

theorem cswapFast_getElem? {arr : List T} {i j : Nat} (hi : i < arr.length) (hj : j < arr.length)
    (choice : Bool) (k : Nat) :
    (cswapFast arr i j choice)[k]? =
      if choice then if k = j then arr[i]? else if k = i then arr[j]? else arr[k]? else arr[k]? := by
  rw [cswapFast, List.getElem?_eq_getElem hi, List.getElem?_eq_getElem hj]
  cases choice with
  | false => rfl
  | true =>
    simp only [if_true, List.getElem?_set, List.length_set]
    by_cases h₁ : j = k
    · subst h₁
      simp [hj]
    · rw [if_neg h₁, if_neg (Ne.symm h₁)]
      by_cases h₂ : i = k
      · subst h₂
        simp [hi]
      · rw [if_neg h₂, if_neg (Ne.symm h₂)]

theorem swapColumns_perm (count offset : Nat) (choice : Nat → Bool) (arr : List T) :
    (swapColumns count offset choice arr).Perm arr :=
  List.foldlRecOn (motive := fun ys : List T => ys.Perm arr) _ _ (.refl _)
    fun ys hys _ _ => (cswapFast_perm ys _ _ _).trans hys

/-- Element `k` after the column swaps. -/
theorem swapColumns_getElem? {count offset : Nat} {arr : List T} (narrow : count ≤ offset)
    (fits : offset + count ≤ arr.length) (choice : Nat → Bool) (k : Nat) :
    (swapColumns count offset choice arr)[k]? =
      if k < count then if choice k then arr[offset + k]? else arr[k]?
      else if offset ≤ k ∧ k < offset + count then
        if choice (k - offset) then arr[k - offset]? else arr[k]?
      else arr[k]? := by
  induction count generalizing k with
  | zero =>
    rw [if_neg (Nat.not_lt_zero k), if_neg (by omega)]
    rfl
  | succ count ih =>
    have ih := fun k => ih (by omega) (by omega) k
    have first : (swapColumns count offset choice arr)[count]? = arr[count]? := by
      rw [ih, if_neg (Nat.lt_irrefl count), if_neg (by omega)]
    have second : (swapColumns count offset choice arr)[offset + count]? = arr[offset + count]? := by
      rw [ih, if_neg (by omega), if_neg (by omega)]
    rw [swapColumns, List.range_succ, List.foldl_append, List.foldl_cons, List.foldl_nil]
    change (cswapFast (swapColumns count offset choice arr) count (offset + count) (choice count))[k]? = _
    rw [cswapFast_getElem? (by simp; omega) (by simp; omega), first, second, ih k]
    rcases Nat.lt_trichotomy k count with lt | rfl | lt
    · have apart : k ≠ offset + count := by omega
      simp only [Nat.lt_succ_of_lt lt, lt, apart, lt.ne, if_true, if_false, ite_self]
    · have apart : k ≠ offset + k := by omega
      have outside : ¬ (offset ≤ k ∧ k < offset + k) := by omega
      simp only [Nat.lt_succ_self k, apart, if_true, if_false, Nat.lt_irrefl, outside]
    · have past : ¬ k < count + 1 := by omega
      by_cases last : k = offset + count
      · subst last
        have column : offset ≤ offset + count ∧ offset + count < offset + (count + 1) := by omega
        have outside : ¬ (offset ≤ offset + count ∧ offset + count < offset + count) := by omega
        rw [if_pos rfl, if_neg past, if_pos column, if_neg (Nat.lt_asymm lt), if_neg outside,
          Nat.add_sub_cancel_left]
      · have same : (offset ≤ k ∧ k < offset + (count + 1)) ↔ (offset ≤ k ∧ k < offset + count) := by
          omega
        simp only [last, lt.ne', Nat.lt_asymm lt, past, if_false, ite_self, same]

theorem swapColumns_swapColumns {count offset : Nat} {arr : List T} (narrow : count ≤ offset)
    (fits : offset + count ≤ arr.length) (choice : Nat → Bool) :
    swapColumns count offset choice (swapColumns count offset choice arr) = arr := by
  apply List.ext_getElem?
  intro k
  rw [swapColumns_getElem? narrow (by simpa using fits), swapColumns_getElem? narrow fits,
    swapColumns_getElem? narrow fits, swapColumns_getElem? narrow fits]
  by_cases low : k < count
  · have past : ¬ offset + k < count := by omega
    have column : offset ≤ offset + k ∧ offset + k < offset + count := by omega
    simp only [low, if_true, past, if_false, Nat.add_sub_cancel_left, column, and_self]
    cases choice k <;> rfl
  · by_cases high : offset ≤ k ∧ k < offset + count
    · have column : k - offset < count := by omega
      simp only [low, high, if_true, if_false, and_self, column, Nat.add_sub_cancel' high.1]
      cases choice (k - offset) <;> rfl
    · simp only [low, high, if_false]

end Swaps

section Compact

/-- The branches of the two-element case. -/
theorem swapPair_marks (c : Nat) (b₀ b₁ : Bool) (z : Nat) (hz : z < 2) :
    swapPair (marksFrom c [b₀, b₁]) z = ((!b₀ && b₁) != decide (z = 1)) := by
  have m : (marksFrom c [b₀, b₁]).getD 1 0 - (marksFrom c [b₀, b₁]).getD 0 0 = b₀.toNat := by
    rw [marksFrom_sub (by simp)]
    cases b₀ <;> rfl
  have d : (marksFrom c [b₀, b₁]).getD 2 0 - (marksFrom c [b₀, b₁]).getD 1 0 = b₁.toNat := by
    rw [marksFrom_getD (by simp), marksFrom_getD (by simp)]
    cases b₀ <;> cases b₁ <;> simp [rankOf]
  rw [swapPair, m, d]
  obtain rfl | rfl : z = 0 ∨ z = 1 := by omega
  all_goals cases b₀ <;> cases b₁ <;> decide

theorem mod_small {x h : Nat} (hx : x < 2 * h) : x % h = if x < h then x else x - h := by
  split
  · exact Nat.mod_eq_of_lt ‹_›
  · rw [Nat.mod_eq_sub_mod (by omega), Nat.mod_eq_of_lt (by omega)]

theorem mod_double (x : Nat) {h : Nat} (hh : 0 < h) :
    x % (2 * h) = x % h ∨ x % (2 * h) = h + x % h := by
  have small := Nat.mod_lt x (Nat.mul_pos Nat.two_pos hh)
  have back : x % (2 * h) % h = x % h := Nat.mod_mul_left_mod x 2 h
  rw [mod_small small] at back
  split at back <;> omega

theorem xor_decide (p q r s : Prop) [Decidable p] [Decidable q] [Decidable r] [Decidable s] :
    ((decide p ^^ decide q) ^^ decide r) = decide s ↔ (((p ↔ ¬ q) ↔ ¬ r) ↔ s) := by
  by_cases p <;> by_cases q <;> by_cases r <;> by_cases s <;> simp_all

/-- Whether the last layer of a block moves an element to the other half, for
the element of rank `r` that the left half holds in column `(z + r) % half`. -/
theorem swap_left {half z m r : Nat} (hz : z < 2 * half) (hr : r < m) (hm : m ≤ half) :
    ((decide (z % half + m ≥ half) ^^ decide (z ≥ half)) ^^
      decide ((z + r) % half ≥ (z + m) % half)) = decide (half ≤ (z + r) % (2 * half)) := by
  have pos : 0 < half := by omega
  have low := Nat.mod_lt z pos
  have column : z % half + r < 2 * half := by omega
  have slot : z + r < 2 * (2 * half) := by omega
  rw [xor_decide, Nat.add_mod z r, Nat.add_mod z m, Nat.mod_eq_of_lt (hr.trans_le hm), mod_small column,
    mod_small slot]
  have col : (z % half + m % half) % half =
      if z % half + m < half then z % half + m else z % half + m - half := by
    rw [Nat.add_mod_mod, mod_small (by omega)]
  rw [col, mod_small hz] at *
  split <;> split <;> split <;> split <;> omega

theorem swap_right {half z m r : Nat} (hz : z < 2 * half) (hr : r < half) (hm : m ≤ half) :
    ((decide (z % half + m ≥ half) ^^ decide (z ≥ half)) ^^
      decide ((z + m + r) % half ≥ (z + m) % half)) = decide (¬ half ≤ (z + m + r) % (2 * half)) := by
  have pos : 0 < half := by omega
  have low := Nat.mod_lt z pos
  have col : (z + m) % half = if z % half + m < half then z % half + m else z % half + m - half := by
    rw [← Nat.mod_add_mod, mod_small (by omega)]
  have low' := Nat.mod_lt (z + m) pos
  have column : (z + m) % half + r < 2 * half := by omega
  have slot : z + m + r < 2 * (2 * half) := by omega
  rw [xor_decide, ← Nat.mod_add_mod (z + m), mod_small column, mod_small slot]
  rw [col, mod_small hz] at *
  split <;> split <;> split <;> split <;> omega

theorem compactPow2_perm (arr : List T) (payload : List Nat) (z : Nat) :
    (compactPow2 arr payload z).Perm arr := by
  fun_induction compactPow2 arr payload z with
  | case1 => rfl
  | case2 => exact cswapFast_perm _ _ _ _
  | case3 arr _ _ n h₁ h₂ half _ _ _ _ _ _ ih₁ ih₂ =>
    exact (swapColumns_perm _ _ _ _).trans ((ih₁.append ih₂).trans
      (.of_eq (List.take_append_drop half arr)))

theorem compactPow2_length (arr : List T) (payload : List Nat) (z : Nat) :
    (compactPow2 arr payload z).length = arr.length := (compactPow2_perm arr payload z).length_eq

theorem compactPow2_pair {arr : List T} (len : arr.length = 2) (payload : List Nat) (z : Nat) :
    compactPow2 arr payload z = cswapFast arr 0 1 (swapPair payload z) := by
  rw [compactPow2]
  simp only [len, Nat.lt_irrefl, if_false, if_true]

/-- A longer block compacts its halves and then exchanges columns. -/
theorem compactPow2_halves {half : Nat} {arr : List T} (big : 2 ≤ half) (len : arr.length = 2 * half)
    (payload : List Nat) (z : Nat) :
    compactPow2 arr payload z =
      let m := payload.getD half 0 - payload.getD 0 0
      let zleft := z &&& (half - 1)
      let zright := (z + m) &&& (half - 1)
      swapColumns half half
        (fun i => (decide (zleft + m ≥ half) ^^ decide (z ≥ half)) ^^ decide (i ≥ zright))
        (compactPow2 (arr.take half) (payload.take (half + 1)) zleft ++
          compactPow2 (arr.drop half) (payload.drop half) zright) := by
  rw [compactPow2]
  simp only [len, Nat.mul_div_cancel_left half Nat.two_pos]
  rw [if_neg (by omega), if_neg (by omega)]

/-- The element of rank `r` among the marked ones lands `r` slots after `z`, cyclically. -/
theorem compactPow2_place {t z c : Nat} {arr : List T} {bs : List Bool}
    (len : arr.length = 2 ^ (t + 1)) (flags : bs.length = 2 ^ (t + 1)) (hz : z < 2 ^ (t + 1)) {i : Nat}
    (hi : bs[i]? = some true) :
    (compactPow2 arr (marksFrom c bs) z)[(z + rankOf bs i) % 2 ^ (t + 1)]? = arr[i]? := by
  induction t generalizing z c arr bs i with
  | zero =>
    match arr, len, bs, flags with
    | [a₀, a₁], _, [b₀, b₁], _ =>
      rw [compactPow2_pair rfl, swapPair_marks c b₀ b₁ z (by simpa using hz)]
      obtain rfl | rfl : z = 0 ∨ z = 1 := by simp at hz; omega
      all_goals
        match i, hi with
        | 0, hi =>
          obtain rfl : b₀ = true := by simpa using hi
          cases b₁ <;> rfl
        | 1, hi =>
          obtain rfl : b₁ = true := by simpa using hi
          cases b₀ <;> rfl
  | succ t ih =>
    have two : 2 ^ (t + 1 + 1) = 2 * 2 ^ (t + 1) := Nat.pow_succ'
    have big : 2 ≤ 2 ^ (t + 1) := Nat.le_self_pow (Nat.succ_ne_zero t) 2
    have mask : ∀ x, x &&& (2 ^ (t + 1) - 1) = x % 2 ^ (t + 1) := fun x =>
      Nat.and_two_pow_sub_one_eq_mod x _
    rw [compactPow2_halves big (len.trans two)]
    simp only [two, mask]
    rw [two] at len flags hz
    generalize 2 ^ (t + 1) = half at *
    have hm := rankOf_le bs half
    have pos : 0 < half := Nat.two_pos.trans_le big
    rw [marksFrom_sub (by omega), marksFrom_take, marksFrom_drop (by omega)]
    have hleft := fun i hi => @ih (z % half) c (arr.take half) (bs.take half)
      (by rw [List.length_take]; omega) (by rw [List.length_take]; omega)
      (Nat.mod_lt _ (by omega)) i hi
    have hright := fun i hi => @ih ((z + rankOf bs half) % half) (c + rankOf bs half)
      (arr.drop half) (bs.drop half) (by rw [List.length_drop]; omega)
      (by rw [List.length_drop]; omega) (Nat.mod_lt _ (by omega)) i hi
    have lenL := compactPow2_length (arr.take half) (marksFrom c (bs.take half)) (z % half)
    have lenR := compactPow2_length (arr.drop half) (marksFrom (c + rankOf bs half) (bs.drop half))
      ((z + rankOf bs half) % half)
    rw [List.length_take] at lenL
    rw [List.length_drop] at lenR
    generalize compactPow2 (arr.take half) (marksFrom c (bs.take half)) (z % half) = left at *
    generalize compactPow2 (arr.drop half) (marksFrom (c + rankOf bs half) (bs.drop half))
      ((z + rankOf bs half) % half) = right at *
    rw [swapColumns_getElem? (Nat.le_refl _) (by rw [List.length_append]; omega)]
    have low : ∀ k < half, (left ++ right)[k]? = left[k]? := fun k hk =>
      List.getElem?_append_left (by omega)
    have high : ∀ k, (left ++ right)[half + k]? = right[k]? := fun k => by
      rw [List.getElem?_append_right (by omega)]
      congr 1
      omega
    by_cases side : i < half
    · -- a marked element of the left half sits in column `(z + rank) % half`
      have place := hleft i (by rw [List.getElem?_take_of_lt side]; exact hi)
      rw [rankOf_take (Nat.le_of_lt side), List.getElem?_take_of_lt side, Nat.mod_add_mod] at place
      have col := Nat.mod_lt (z + rankOf bs i) pos
      have swap := swap_left hz (rankOf_lt hi side) hm
      rcases mod_double (z + rankOf bs i) pos with stay | move
      · have choice := swap.trans (decide_eq_false (by omega))
        rw [stay, if_pos col, choice, if_neg (by decide), low _ col, place]
      · have choice := swap.trans (decide_eq_true (by omega))
        rw [move, if_neg (by omega), if_pos (by omega), Nat.add_sub_cancel_left, choice, if_pos rfl,
          low _ col, place]
    · obtain ⟨i', rfl⟩ := Nat.exists_eq_add_of_le (Nat.le_of_not_lt side)
      have small : rankOf (bs.drop half) i' < half := (rankOf_drop_lt hi).trans_le (by omega)
      have place := hright i' (by rw [List.getElem?_drop]; exact hi)
      rw [List.getElem?_drop, Nat.mod_add_mod] at place
      rw [rankOf_add, ← Nat.add_assoc]
      have col := Nat.mod_lt (z + rankOf bs half + rankOf (bs.drop half) i') pos
      have swap := swap_right hz small hm
      rcases mod_double (z + rankOf bs half + rankOf (bs.drop half) i') pos with move | stay
      · have choice := swap.trans (decide_eq_true (by omega))
        rw [move, if_pos col, choice, if_pos rfl, high, place]
      · have choice := swap.trans (decide_eq_false (by omega))
        rw [stay, if_neg (by omega), if_pos (by omega), Nat.add_sub_cancel_left, choice,
          if_neg (by decide), high, place]

/-- The largest power of two in a length of at least two. -/
theorem log2_split {n : Nat} (hn : 1 < n) :
    ∃ t, Nat.log2 n = t + 1 ∧ 2 ^ (t + 1) ≤ n ∧ n < 2 * 2 ^ (t + 1) := by
  have low := Nat.log2_self_le (Nat.ne_zero_of_lt hn)
  have high := @Nat.lt_log2_self n
  cases h : Nat.log2 n with
  | zero => simp [h] at high; omega
  | succ t =>
    rw [h] at low high
    exact ⟨t, rfl, low, by rwa [Nat.pow_succ'] at high⟩

theorem compactPayload_perm (arr : List T) (payload : List Nat) :
    (compactPayload arr payload).Perm arr := by
  fun_induction compactPayload arr payload with
  | case1 => rfl
  | case2 => exact compactPow2_perm _ _ _
  | case3 arr payload n h₁ n1 n2 h₂ m left right ih =>
    exact (swapColumns_perm _ _ _ _).trans ((ih.append (compactPow2_perm _ _ _)).trans
      (.of_eq (List.take_append_drop n2 arr)))

theorem compactPayload_length (arr : List T) (payload : List Nat) :
    (compactPayload arr payload).length = arr.length := (compactPayload_perm arr payload).length_eq

/-- The marked element of rank `r` lands in slot `r`. -/
theorem compactPayload_place {c : Nat} {arr : List T} {bs : List Bool} (flags : bs.length = arr.length)
    {i : Nat} (hi : bs[i]? = some true) :
    (compactPayload arr (marksFrom c bs))[rankOf bs i]? = arr[i]? := by
  induction hn : arr.length using Nat.strong_induction_on generalizing c arr bs i with
  | _ n ih =>
    have inside := (List.getElem?_eq_some_iff.mp hi).1
    rw [compactPayload]
    simp only [hn]
    split
    · obtain rfl : i = 0 := by omega
      rfl
    obtain ⟨t, hlog, hlow, hhigh⟩ := log2_split (show 1 < n by omega)
    rw [hlog]
    split
    · have exact_pow : n = 2 ^ (t + 1) := by omega
      have place := compactPow2_place (c := c) (z := 0) (hn.trans exact_pow)
        (flags.trans (hn.trans exact_pow)) (Nat.two_pow_pos _) hi
      have r := rankOf_lt hi inside
      have all := rankOf_le bs bs.length
      rwa [Nat.zero_add, Nat.mod_eq_of_lt (by omega)] at place
    rename_i tail
    have sub : ∃ n2, n - 2 ^ (t + 1) = n2 ∧ 0 < n2 ∧ n = n2 + 2 ^ (t + 1) ∧ n2 < 2 ^ (t + 1) :=
      ⟨_, rfl, by omega, by omega, by omega⟩
    obtain ⟨n2, h2, h2pos, hsum, hlt⟩ := sub
    rw [h2]
    have hm := rankOf_le bs n2
    rw [marksFrom_sub (by omega), marksFrom_take, marksFrom_drop (by omega)]
    have hleft := fun i hi => @ih n2 (by omega) c (arr.take n2) (bs.take n2)
      (by rw [List.length_take, List.length_take]; omega) i hi
      (by rw [List.length_take]; omega)
    have hright := fun i hi => @compactPow2_place _ t
      ((2 ^ (t + 1) - n2 + rankOf bs n2) % 2 ^ (t + 1)) (c + rankOf bs n2) (arr.drop n2) (bs.drop n2)
      (by rw [List.length_drop]; omega) (by rw [List.length_drop]; omega)
      (Nat.mod_lt _ (Nat.two_pow_pos _)) i hi
    have lenL := compactPayload_length (arr.take n2) (marksFrom c (bs.take n2))
    have lenR := compactPow2_length (arr.drop n2) (marksFrom (c + rankOf bs n2) (bs.drop n2))
      ((2 ^ (t + 1) - n2 + rankOf bs n2) % 2 ^ (t + 1))
    rw [List.length_take] at lenL
    rw [List.length_drop] at lenR
    generalize compactPayload (arr.take n2) (marksFrom c (bs.take n2)) = left at *
    generalize compactPow2 (arr.drop n2) (marksFrom (c + rankOf bs n2) (bs.drop n2))
      ((2 ^ (t + 1) - n2 + rankOf bs n2) % 2 ^ (t + 1)) = right at *
    generalize 2 ^ (t + 1) = n1 at *
    rw [swapColumns_getElem? (by omega) (by rw [List.length_append]; omega)]
    have low : ∀ k < n2, (left ++ right)[k]? = left[k]? := fun k hk =>
      List.getElem?_append_left (by omega)
    have high : ∀ k, (left ++ right)[n2 + k]? = right[k]? := fun k => by
      rw [List.getElem?_append_right (by omega)]
      congr 1
      omega
    by_cases side : i < n2
    · have place := hleft i (by rw [List.getElem?_take_of_lt side]; exact hi)
      have r := rankOf_lt hi side
      rw [rankOf_take (Nat.le_of_lt side), List.getElem?_take_of_lt side] at place
      rw [if_pos (by omega), if_neg (by simpa using r), low _ (by omega), place]
    · obtain ⟨i', rfl⟩ := Nat.exists_eq_add_of_le (Nat.le_of_not_lt side)
      have place := hright i' (by rw [List.getElem?_drop]; exact hi)
      have small : rankOf (bs.drop n2) i' < n1 := (rankOf_drop_lt hi).trans_le (by omega)
      rw [List.getElem?_drop, Nat.mod_add_mod] at place
      rw [rankOf_add]
      generalize rankOf (bs.drop n2) i' = r at *
      generalize rankOf bs n2 = m at *
      rw [mod_small (by omega)] at place
      by_cases wrap : m + r < n2
      · -- the target slot is still in the short part, one column swap away
        rw [if_pos (by omega)] at place
        rw [if_pos wrap, if_pos (by simp), show n1 + (m + r) = n2 + (n1 - n2 + m + r) by omega, high,
          place]
      · rw [if_neg (by omega), show n1 - n2 + m + r - n1 = m + r - n2 by omega] at place
        have here : (left ++ right)[m + r]? = arr[n2 + i']? := by
          rw [← place, ← high, Nat.add_sub_cancel' (Nat.le_of_not_lt wrap)]
        rw [if_neg wrap, here]
        split
        · rw [if_neg (by simp; omega)]
        · rfl

end Compact

section Distribute

theorem cswapFast_cswapFast (arr : List T) (hn : arr.length = 2) (choice : Bool) :
    cswapFast (cswapFast arr 0 1 choice) 0 1 choice = arr := by
  match arr, hn with
  | [a, b], _ => cases choice <;> rfl

theorem distributePow2_pair {arr : List T} (len : arr.length = 2) (payload : List Nat) (z : Nat) :
    distributePow2 arr payload z = cswapFast arr 0 1 (swapPair payload z) := by
  rw [distributePow2]
  simp only [len, Nat.lt_irrefl, if_false, if_true]

/-- A longer block exchanges columns and then distributes its halves. -/
theorem distributePow2_halves {half : Nat} {arr : List T} (big : 2 ≤ half) (len : arr.length = 2 * half)
    (payload : List Nat) (z : Nat) :
    distributePow2 arr payload z =
      let m := payload.getD half 0 - payload.getD 0 0
      let zleft := z &&& (half - 1)
      let zright := (z + m) &&& (half - 1)
      let swapped := swapColumns half half
        (fun i => (decide (zleft + m ≥ half) ^^ decide (z ≥ half)) ^^ decide (i ≥ zright)) arr
      distributePow2 (swapped.take half) (payload.take (half + 1)) zleft ++
        distributePow2 (swapped.drop half) (payload.drop half) zright := by
  rw [distributePow2]
  simp only [len, Nat.mul_div_cancel_left half Nat.two_pos]
  rw [if_neg (by omega), if_neg (by omega)]

theorem distributePow2_compactPow2 {t : Nat} {arr : List T} (len : arr.length = 2 ^ (t + 1))
    (payload : List Nat) (z : Nat) :
    distributePow2 (compactPow2 arr payload z) payload z = arr := by
  induction t generalizing arr payload z with
  | zero =>
    rw [distributePow2_pair ((compactPow2_length arr payload z).trans len), compactPow2_pair len]
    exact cswapFast_cswapFast arr len _
  | succ t ih =>
    have big : 2 ≤ 2 ^ (t + 1) := Nat.le_self_pow (Nat.succ_ne_zero t) 2
    replace len : arr.length = 2 * 2 ^ (t + 1) := len.trans Nat.pow_succ'
    rw [distributePow2_halves big ((compactPow2_length arr payload z).trans len), compactPow2_halves big len]
    dsimp only
    generalize z &&& (2 ^ (t + 1) - 1) = zl
    generalize (z + (payload.getD (2 ^ (t + 1)) 0 - payload.getD 0 0)) &&& (2 ^ (t + 1) - 1) = zr
    have lenT : (arr.take (2 ^ (t + 1))).length = 2 ^ (t + 1) := by
      rw [List.length_take]
      omega
    have lenD : (arr.drop (2 ^ (t + 1))).length = 2 ^ (t + 1) := by
      rw [List.length_drop]
      omega
    have lenL := (compactPow2_length (arr.take (2 ^ (t + 1))) (payload.take (2 ^ (t + 1) + 1)) zl).trans lenT
    have lenR := (compactPow2_length (arr.drop (2 ^ (t + 1))) (payload.drop (2 ^ (t + 1))) zr).trans lenD
    rw [swapColumns_swapColumns (Nat.le_refl _) (by rw [List.length_append]; omega),
      List.take_left' lenL, List.drop_left' lenL, ih lenT, ih lenD, List.take_append_drop]

theorem compactPow2_distributePow2 {t : Nat} {arr : List T} (len : arr.length = 2 ^ (t + 1))
    (payload : List Nat) (z : Nat) : (distributePow2 arr payload z).length = arr.length ∧
      compactPow2 (distributePow2 arr payload z) payload z = arr := by
  induction t generalizing arr payload z with
  | zero =>
    rw [distributePow2_pair len]
    refine ⟨cswapFast_length _ _ _ _, ?_⟩
    rw [compactPow2_pair ((cswapFast_length _ _ _ _).trans len)]
    exact cswapFast_cswapFast arr len _
  | succ t ih =>
    have big : 2 ≤ 2 ^ (t + 1) := Nat.le_self_pow (Nat.succ_ne_zero t) 2
    replace len : arr.length = 2 * 2 ^ (t + 1) := len.trans Nat.pow_succ'
    rw [distributePow2_halves big len]
    dsimp only
    generalize hzl : z &&& (2 ^ (t + 1) - 1) = zl
    generalize hzr : (z + (payload.getD (2 ^ (t + 1)) 0 - payload.getD 0 0)) &&& (2 ^ (t + 1) - 1) = zr
    generalize hs : swapColumns (2 ^ (t + 1)) (2 ^ (t + 1)) (fun i =>
      (decide (zl + (payload.getD (2 ^ (t + 1)) 0 - payload.getD 0 0) ≥ 2 ^ (t + 1)) ^^
        decide (z ≥ 2 ^ (t + 1))) ^^ decide (i ≥ zr)) arr = swapped
    have lenS : swapped.length = 2 * 2 ^ (t + 1) := by rw [← hs, swapColumns_length, len]
    have lenT : (swapped.take (2 ^ (t + 1))).length = 2 ^ (t + 1) := by
      rw [List.length_take]
      omega
    have lenD : (swapped.drop (2 ^ (t + 1))).length = 2 ^ (t + 1) := by
      rw [List.length_drop]
      omega
    obtain ⟨lenL, backL⟩ := ih lenT (payload.take (2 ^ (t + 1) + 1)) zl
    obtain ⟨lenR, backR⟩ := ih lenD (payload.drop (2 ^ (t + 1))) zr
    rw [lenT] at lenL
    rw [lenD] at lenR
    have whole : (distributePow2 (swapped.take (2 ^ (t + 1))) (payload.take (2 ^ (t + 1) + 1)) zl ++
        distributePow2 (swapped.drop (2 ^ (t + 1))) (payload.drop (2 ^ (t + 1))) zr).length = 2 * 2 ^ (t + 1) := by
      rw [List.length_append, lenL, lenR, Nat.two_mul]
    refine ⟨whole.trans len.symm, ?_⟩
    rw [compactPow2_halves big whole]
    simp only [hzl, hzr]
    rw [List.take_left' lenL, List.drop_left' lenL, backL, backR, List.take_append_drop, ← hs]
    exact swapColumns_swapColumns (Nat.le_refl _) (by omega) _

/-- Compaction undoes distribution. -/
theorem compactPayload_distributePayload (arr : List T) (payload : List Nat) :
    (distributePayload arr payload).length = arr.length ∧
      compactPayload (distributePayload arr payload) payload = arr := by
  induction hn : arr.length using Nat.strong_induction_on generalizing arr payload with
  | _ n ih =>
    rw [distributePayload]
    simp only [hn]
    split
    · rw [compactPayload]
      simp [*]
    obtain ⟨t, hlog, hlow, hhigh⟩ := log2_split (show 1 < n by omega)
    rw [hlog]
    split
    · have back := compactPow2_distributePow2 (show arr.length = 2 ^ (t + 1) by omega) payload 0
      refine ⟨back.1.trans hn, ?_⟩
      rw [compactPayload]
      simp only [back.1, hn, hlog]
      rw [if_neg (by omega), if_pos (by omega), back.2]
    rename_i tail
    generalize hs : swapColumns (n - 2 ^ (t + 1)) (2 ^ (t + 1)) (fun i =>
      decide (i ≥ payload.getD (n - 2 ^ (t + 1)) 0 - payload.getD 0 0)) arr = swapped
    have lenS : swapped.length = n := by rw [← hs, swapColumns_length, hn]
    have lenT : (swapped.take (n - 2 ^ (t + 1))).length = n - 2 ^ (t + 1) := by
      rw [List.length_take]
      omega
    have lenD : (swapped.drop (n - 2 ^ (t + 1))).length = 2 ^ (t + 1) := by
      rw [List.length_drop]
      omega
    obtain ⟨lenL, backL⟩ := ih _ (by omega) _ (payload.take (n - 2 ^ (t + 1) + 1)) lenT
    obtain ⟨lenR, backR⟩ := compactPow2_distributePow2 lenD (payload.drop (n - 2 ^ (t + 1)))
      ((2 ^ (t + 1) - (n - 2 ^ (t + 1)) +
        (payload.getD (n - 2 ^ (t + 1)) 0 - payload.getD 0 0)) % 2 ^ (t + 1))
    rw [lenD] at lenR
    have total := @List.length_append _ (distributePayload (swapped.take (n - 2 ^ (t + 1)))
      (payload.take (n - 2 ^ (t + 1) + 1))) (distributePow2 (swapped.drop (n - 2 ^ (t + 1)))
      (payload.drop (n - 2 ^ (t + 1))) ((2 ^ (t + 1) - (n - 2 ^ (t + 1)) +
        (payload.getD (n - 2 ^ (t + 1)) 0 - payload.getD 0 0)) % 2 ^ (t + 1)))
    rw [lenL, lenR, Nat.sub_add_cancel hlow] at total
    refine ⟨total, ?_⟩
    rw [compactPayload]
    simp only [total, hlog]
    rw [if_neg (by omega), if_neg (by omega), List.take_left' lenL, List.drop_left' lenL, backL, backR,
      List.take_append_drop, ← hs]
    exact swapColumns_swapColumns (by omega) (by omega) _

theorem distributePayload_length (arr : List T) (payload : List Nat) :
    (distributePayload arr payload).length = arr.length :=
  (compactPayload_distributePayload arr payload).1

theorem distributePayload_perm (arr : List T) (payload : List Nat) :
    (distributePayload arr payload).Perm arr := by
  have back := (compactPayload_distributePayload arr payload).2
  exact ((compactPayload_perm _ payload).symm).trans (.of_eq back)

/-- Slot `i` receives the element at its rank. -/
theorem distributePayload_place {c : Nat} {arr : List T} {bs : List Bool}
    (flags : bs.length = arr.length) {i : Nat} (hi : bs[i]? = some true) :
    (distributePayload arr (marksFrom c bs))[i]? = arr[rankOf bs i]? := by
  obtain ⟨len, back⟩ := compactPayload_distributePayload arr (marksFrom c bs)
  have place := compactPayload_place (c := c) (flags.trans len.symm) hi
  rw [back] at place
  exact place.symm

end Distribute

section Blocks
variable {K : Nat} {V : Type}

/-- Reality flags of a slice. -/
def flagsOf (blocks : List (OramBlock K V)) : List Bool := blocks.map OramBlock.isReal

@[simp] theorem flagsOf_length (blocks : List (OramBlock K V)) :
    (flagsOf blocks).length = blocks.length := List.length_map _

theorem count_flagsOf (blocks : List (OramBlock K V)) :
    (flagsOf blocks).count true = (reals blocks).length := by
  rw [flagsOf, List.count_eq_countP, List.countP_map, reals, ← List.countP_eq_length_filter]
  congr 1
  funext b
  cases h : b.isReal <;> simp [h]

theorem compactMarks_eq (blocks : List (OramBlock K V)) :
    compactMarks blocks = marksFrom 0 (flagsOf blocks) := by
  rw [compactMarks, marksFrom, flagsOf, List.map_map]
  congr 2
  exact List.map_congr_left fun b _ => OramBlock.ctIsReal_isReal b

/-- The last mark is the number of real blocks. -/
theorem compactMarks_last (blocks : List (OramBlock K V)) :
    (compactMarks blocks).getD blocks.length 0 = (reals blocks).length := by
  rw [compactMarks_eq, ← flagsOf_length blocks, marksFrom_getD (Nat.le_refl _), Nat.zero_add, rankOf,
    List.take_length, count_flagsOf]

/-- Every rank below the number of set flags is taken. -/
theorem exists_rankOf {bs : List Bool} {r : Nat} (hr : r < bs.count true) :
    ∃ i, bs[i]? = some true ∧ rankOf bs i = r := by
  induction bs generalizing r with
  | nil => simp at hr
  | cons b bs ih =>
    cases b with
    | true =>
      cases r with
      | zero => exact ⟨0, rfl, rfl⟩
      | succ r =>
        obtain ⟨i, hi, rfl⟩ := ih (r := r) (by simpa using hr)
        exact ⟨i + 1, by simpa using hi, by rw [rankOf_succ_cons]; exact Nat.add_comm 1 _⟩
    | false =>
      obtain ⟨i, hi, rfl⟩ := ih (r := r) (by simpa using hr)
      exact ⟨i + 1, by simpa using hi, by rw [rankOf_succ_cons]; exact Nat.zero_add _⟩

theorem reals_getElem? {blocks : List (OramBlock K V)} {i : Nat}
    (hi : (flagsOf blocks)[i]? = some true) : (reals blocks)[rankOf (flagsOf blocks) i]? = blocks[i]? := by
  induction blocks generalizing i with
  | nil => simp [flagsOf] at hi
  | cons b blocks ih =>
    cases i with
    | zero =>
      have hb : b.isReal = true := by simpa [flagsOf] using hi
      rw [reals_cons_real hb]
      rfl
    | succ i =>
      have step := ih (i := i) (by simpa [flagsOf] using hi)
      have rank : rankOf (flagsOf (b :: blocks)) (i + 1) = b.isReal.toNat + rankOf (flagsOf blocks) i :=
        rankOf_succ_cons _ _ _
      rw [List.getElem?_cons_succ, ← step, rank]
      cases hb : b.isReal with
      | true =>
        rw [reals_cons_real hb, Bool.toNat_true, Nat.add_comm, List.getElem?_cons_succ]
      | false => rw [reals_cons_dummy hb, Bool.toNat_false, Nat.zero_add]

/-- Compaction leaves the real blocks in order, then dummies only. -/
theorem compactPayload_reals (blocks : List (OramBlock K V)) :
    ∃ rest, compactPayload blocks (compactMarks blocks) = reals blocks ++ rest ∧
      ∀ b ∈ rest, b.isReal = false := by
  rw [compactMarks_eq]
  have perm := compactPayload_perm blocks (marksFrom 0 (flagsOf blocks))
  have place := fun i => compactPayload_place (c := 0) (flagsOf_length blocks) (i := i)
  generalize compactPayload blocks (marksFrom 0 (flagsOf blocks)) = out at *
  have short : (reals blocks).length ≤ out.length := by
    rw [perm.length_eq]
    exact List.length_filter_le _ _
  have front : out.take (reals blocks).length = reals blocks := by
    apply List.ext_getElem?
    intro r
    by_cases hr : r < (reals blocks).length
    · obtain ⟨i, hi, rfl⟩ := exists_rankOf (by rwa [count_flagsOf])
      rw [List.getElem?_take_of_lt hr, place i hi, reals_getElem? hi]
    · rw [List.getElem?_eq_none (by rw [List.length_take]; omega), List.getElem?_eq_none (by omega)]
  refine ⟨out.drop (reals blocks).length, ?_, ?_⟩
  · nth_rewrite 1 [← List.take_append_drop (reals blocks).length out]
    rw [front]
  · have whole := (reals_perm perm).length_eq
    rw [← List.take_append_drop (reals blocks).length out, front, reals_append,
      reals_eq_self fun b hb => (mem_reals.mp hb).2, List.length_append] at whole
    exact reals_eq_nil.mp (List.length_eq_zero_iff.mp (by omega))

theorem count_le_of_imp {xs ys : List Bool} (len : xs.length = ys.length)
    (h : ∀ i : Nat, xs[i]? = some true → ys[i]? = some true) : xs.count true ≤ ys.count true := by
  induction xs generalizing ys with
  | nil => exact Nat.zero_le _
  | cons x xs ih =>
    match ys, len with
    | y :: ys, len =>
      have tail := ih (by simpa using len) fun i => h (i + 1)
      cases x with
      | true =>
        obtain rfl : y = true := by simpa using h 0 rfl
        simpa using tail
      | false => exact tail.trans (by simp [List.count_cons])

theorem flags_eq {xs ys : List Bool} (len : xs.length = ys.length)
    (h : ∀ i : Nat, xs[i]? = some true → ys[i]? = some true) (count : ys.count true ≤ xs.count true) :
    ys = xs := by
  induction xs generalizing ys with
  | nil => exact List.length_eq_zero_iff.mp len.symm
  | cons x xs ih =>
    match ys, len with
    | y :: ys, len =>
      have sizes : xs.length = ys.length := by simpa using len
      have tail : ∀ i : Nat, xs[i]? = some true → ys[i]? = some true := fun i => h (i + 1)
      have more := count_le_of_imp sizes tail
      cases x with
      | true =>
        obtain rfl : y = true := by simpa using h 0 rfl
        rw [ih sizes tail (by simpa using count)]
      | false =>
        cases y with
        | true => simp at count; omega
        | false => rw [ih sizes tail (by simpa using count)]

/-- Distribution sends the real prefix to the flagged slots, in order. -/
theorem distributePayload_reals {arr xs rest : List (OramBlock K V)} {bs : List Bool}
    (harr : arr = xs ++ rest) (hxs : ∀ b ∈ xs, b.isReal = true) (hrest : ∀ b ∈ rest, b.isReal = false)
    (flags : bs.length = arr.length) (count : bs.count true = xs.length) :
    flagsOf (distributePayload arr (marksFrom 0 bs)) = bs ∧
      reals (distributePayload arr (marksFrom 0 bs)) = xs := by
  have perm := distributePayload_perm arr (marksFrom 0 bs)
  have place := fun i => distributePayload_place (c := 0) flags (i := i)
  generalize distributePayload arr (marksFrom 0 bs) = out at *
  have whole : reals arr = xs := by
    rw [harr, reals_append, reals_eq_self hxs, reals_eq_nil.mpr hrest, List.append_nil]
  have sizes : (reals out).length = xs.length := by rw [(reals_perm perm).length_eq, whole]
  have inside : ∀ i, bs[i]? = some true → rankOf bs i < xs.length := fun i hi => by
    have bound := (List.getElem?_eq_some_iff.mp hi).1
    have lt := rankOf_lt hi bound
    rwa [show rankOf bs bs.length = xs.length by rw [rankOf, List.take_length, count]] at lt
  have marked : flagsOf out = bs := by
    refine flags_eq (by rw [flagsOf_length, perm.length_eq, flags]) (fun i hi => ?_) ?_
    · have lt := inside i hi
      rw [flagsOf, List.getElem?_map, place i hi, harr, List.getElem?_append_left lt,
        List.getElem?_eq_getElem lt, Option.map_some, hxs _ (List.getElem_mem lt)]
    · rw [count_flagsOf, sizes, count]
  refine ⟨marked, List.ext_getElem? fun r => ?_⟩
  by_cases hr : r < xs.length
  · obtain ⟨i, hi, rfl⟩ := exists_rankOf (by rwa [count])
    have at_rank := reals_getElem? (i := i) (by rwa [marked])
    rw [marked] at at_rank
    rw [at_rank, place i hi, harr, List.getElem?_append_left hr]
  · rw [List.getElem?_eq_none (by omega), List.getElem?_eq_none (by omega)]

end Blocks

section SortReduce
variable {K : Nat} {V : Type}

theorem dummyPast_append (xs rest : List (OramBlock K V)) :
    dummyPast xs.length (xs ++ rest) = xs ++ rest.map fun b => { b with tag := 0 } := by
  have keep : ∀ (b : OramBlock K V) (i : Nat), b.conditionalDummy (ctNot (ctLtCount i xs.length)) =
      if i < xs.length then b else { b with tag := 0 } := fun b i => by
    rw [ctLtCount, ctNot_toUInt8, OramBlock.conditionalDummy_toUInt8]
    by_cases h : i < xs.length <;> simp [h]
  rw [dummyPast, List.mapIdx_append]
  congr 1
  · apply List.ext_getElem (by simp)
    intro i _ hi
    rw [List.getElem_mapIdx, keep, if_pos hi]
  · apply List.ext_getElem (by simp)
    intro i _ hi
    rw [List.getElem_mapIdx, keep, if_neg (by omega), List.getElem_map]

variable [Add V] [Inhabited V]

/-- The sorted slice that `sort_reduce` hands to the reduction. -/
theorem sortReduce_eq (blocks : List (OramBlock K V)) (keyOf : OramBlock K V → UInt64) :
    ∃ sorted, sorted.Perm blocks ∧ sorted.Pairwise (fun a b => keyOf a ≤ keyOf b) ∧
      sortReduce blocks keyOf = reduceEqualRuns sorted := by
  obtain ⟨xs, perm, ascending, run⟩ :=
    Djbsort.sortWithPayload_spec (show (blocks.map keyOf).length = blocks.length by simp)
  have pairs : (blocks.map keyOf).zip blocks = blocks.map fun b => (keyOf b, b) := by
    simpa only [List.map_id, id] using List.zip_map' (f := keyOf) (g := id) (l := blocks)
  rw [pairs] at perm
  have keyed : ∀ x ∈ xs, x.1 = keyOf x.2 := fun x hx => by
    obtain ⟨b, -, rfl⟩ := List.mem_map.mp (perm.mem_iff.mp hx)
    rfl
  refine ⟨xs.map Prod.snd, ?_, ?_, ?_⟩
  · have second := perm.map Prod.snd
    rwa [List.map_map, show Prod.snd ∘ (fun b => (keyOf b, b)) = id from rfl, List.map_id] at second
  · rw [List.pairwise_map]
    refine ascending.imp_of_mem fun {x y} hx hy h => ?_
    rwa [keyed x hx, keyed y hy] at h
  · rw [sortReduce, run]

/-- Sorting, reducing and compacting leave the surviving blocks in the order of their keys. -/
theorem sortReduceCompact_eq (blocks : List (OramBlock K V)) (keyOf : OramBlock K V → UInt64) :
    ∃ sorted rest, sorted.Perm blocks ∧ sorted.Pairwise (fun a b => keyOf a ≤ keyOf b) ∧
      (∀ b ∈ rest, b.isReal = false) ∧ sortReduceCompact blocks keyOf =
        (reals (reduceEqualRuns sorted) ++ rest, (reals (reduceEqualRuns sorted)).length) := by
  obtain ⟨sorted, perm, ascending, run⟩ := sortReduce_eq blocks keyOf
  obtain ⟨rest, compacted, -⟩ := compactPayload_reals (reduceEqualRuns sorted)
  have last := compactMarks_last (reduceEqualRuns sorted)
  rw [reduceEqualRuns_length, perm.length_eq] at last
  refine ⟨sorted, rest.map fun b => { b with tag := 0 }, perm, ascending, fun b hb => ?_, ?_⟩
  · obtain ⟨a, -, rfl⟩ := List.mem_map.mp hb
    rfl
  · rw [sortReduceCompact, run]
    simp only [last, compacted, dummyPast_append]

/-- Slots in the order of their keys are reduced as they stand. -/
theorem sortReduce_of_sorted {blocks : List (OramBlock K V)} {keyOf : OramBlock K V → UInt64}
    (sorted : blocks.Pairwise fun a b => keyOf a ≤ keyOf b) : sortReduce blocks keyOf = reduceEqualRuns blocks := by
  rw [sortReduce, Djbsort.sortWithPayload_of_sorted (by simp) (List.pairwise_map.mpr sorted)]

/-- Sorted real blocks that do not merge stay as they are. -/
theorem sortReduceCompact_of_sorted {blocks : List (OramBlock K V)} {keyOf : OramBlock K V → UInt64}
    (sorted : blocks.Pairwise fun a b => keyOf a ≤ keyOf b) (apart : reduceEqualRuns blocks = blocks)
    (real : ∀ b ∈ blocks, b.isReal = true) : sortReduceCompact blocks keyOf = (blocks, blocks.length) := by
  obtain ⟨rest, compacted, -⟩ := compactPayload_reals blocks
  have last := compactMarks_last blocks
  have size := congrArg List.length compacted
  rw [reals_eq_self real] at compacted last size
  rw [compactPayload_length, List.length_append] at size
  obtain rfl : rest = [] := List.length_eq_zero_iff.mp (by omega)
  rw [sortReduceCompact, sortReduce_of_sorted sorted, apart]
  simp only [last, compacted]
  rw [dummyPast_append, List.map_nil, List.append_nil]

end SortReduce
end Roga
