import Roga.Oblivious.CompactionProofs

/-! Compaction and distribution of a slice by any array of unit steps: the marked
elements go to the front in order, and distribution is the inverse. -/
namespace Roga
variable {T : Type}

/-- The elements at the set flags, in order. -/
def select : List Bool → List T → List T
  | true :: bs, a :: arr => a :: select bs arr
  | false :: bs, _ :: arr => select bs arr
  | _, _ => []

section Select
variable {bs : List Bool} {arr : List T}

theorem select_length (flags : bs.length = arr.length) : (select bs arr).length = bs.count true := by
  induction bs generalizing arr with
  | nil => rfl
  | cons b bs ih =>
    cases arr with
    | nil => simp at flags
    | cons a arr =>
      have tail := @ih arr (by simpa using flags)
      cases b with
      | true => rw [select, List.length_cons, tail, List.count_cons_self]
      | false => rw [select, tail, List.count_cons_of_ne (by decide)]

theorem select_getElem? (flags : bs.length = arr.length) {i : Nat} (hi : bs[i]? = some true) :
    (select bs arr)[rankOf bs i]? = arr[i]? := by
  induction bs generalizing arr i with
  | nil => simp at hi
  | cons b bs ih =>
    cases arr with
    | nil => simp at flags
    | cons a arr =>
      cases i with
      | zero =>
        obtain rfl : b = true := by simpa using hi
        rfl
      | succ i =>
        have step := @ih arr (by simpa using flags) i (by simpa using hi)
        rw [rankOf_succ_cons, List.getElem?_cons_succ, ← step]
        cases b with
        | true => rw [select, Bool.toNat_true, Nat.add_comm, List.getElem?_cons_succ]
        | false => rw [select, Bool.toNat_false, Nat.zero_add]

/-- The selected and the other elements make up the slice. -/
theorem select_perm (flags : bs.length = arr.length) :
    (select bs arr ++ select (bs.map not) arr).Perm arr := by
  induction bs generalizing arr with
  | nil =>
    rw [List.length_eq_zero_iff.mp flags.symm]
    exact .refl _
  | cons b bs ih =>
    cases arr with
    | nil => simp at flags
    | cons a arr =>
      have tail := @ih arr (by simpa using flags)
      cases b with
      | true => exact tail.cons a
      | false => exact List.perm_middle.trans (tail.cons a)

/-- A list that has the selected elements at their ranks begins with them. -/
theorem take_eq_select {out : List T} (flags : bs.length = arr.length) (size : arr.length ≤ out.length)
    (place : ∀ i, bs[i]? = some true → out[rankOf bs i]? = arr[i]?) :
    out.take (bs.count true) = select bs arr := by
  have some := select_length flags
  have few : bs.count true ≤ bs.length := List.count_le_length
  apply List.ext_getElem?
  intro r
  by_cases hr : r < bs.count true
  · obtain ⟨i, hi, rfl⟩ := exists_rankOf hr
    rw [List.getElem?_take_of_lt hr, place i hi, select_getElem? flags hi]
  · rw [List.getElem?_eq_none (by rw [List.length_take]; omega), List.getElem?_eq_none (by omega)]

end Select

/-- An array of running counts: each entry is the one before or one more. -/
def UnitSteps (marks : List Nat) : Prop := marks.IsChain fun a b => b = a ∨ b = a + 1

/-- The positions at which the count goes up. -/
def stepsOf : List Nat → List Bool
  | a :: b :: marks => decide (a < b) :: stepsOf (b :: marks)
  | _ => []

theorem stepsOf_length (marks : List Nat) : (stepsOf marks).length = marks.length - 1 := by
  fun_induction stepsOf marks with
  | case1 a b marks ih =>
    rw [List.length_cons, ih]
    rfl
  | case2 marks short =>
    match marks, short with
    | [], _ | [_], _ => rfl
    | a :: b :: marks, short => exact absurd rfl (short a b marks)

/-- Arrays of unit steps are the running counts of their steps. -/
theorem marksFrom_stepsOf {c : Nat} {marks : List Nat} (steps : UnitSteps (c :: marks)) :
    marksFrom c (stepsOf (c :: marks)) = c :: marks := by
  induction marks generalizing c with
  | nil => rfl
  | cons d marks ih =>
    obtain ⟨step, rest⟩ := List.isChain_cons_cons.mp steps
    rw [stepsOf, marksFrom_cons]
    have next : c + (decide (c < d)).toNat = d := by
      rcases step with rfl | rfl <;> simp
    rw [next, ih rest]

theorem le_getLast_marks {c : Nat} {marks : List Nat} (steps : UnitSteps (c :: marks)) :
    c ≤ (c :: marks).getLastD 0 := by
  induction marks generalizing c with
  | nil => exact Nat.le_refl c
  | cons d marks ih =>
    obtain ⟨step, rest⟩ := List.isChain_cons_cons.mp steps
    exact (by omega : c ≤ d).trans (ih rest)

/-- The last count less the first is the number of steps. -/
theorem getLast_marks {c : Nat} {marks : List Nat} (steps : UnitSteps (c :: marks)) :
    (stepsOf (c :: marks)).count true = (c :: marks).getLastD 0 - c := by
  induction marks generalizing c with
  | nil => simp [stepsOf]
  | cons d marks ih =>
    obtain ⟨step, rest⟩ := List.isChain_cons_cons.mp steps
    have tail := ih rest
    have up := le_getLast_marks rest
    rw [stepsOf, List.count_cons, tail, show (c :: d :: marks).getLastD 0 = (d :: marks).getLastD 0 from rfl]
    rcases step with rfl | rfl
    · simp
    · simp only [Nat.lt_add_one, decide_true, beq_self_eq_true, if_true]
      omega

section Inverse

/-- Distribution undoes compaction. -/
theorem distributePayload_compactPayload (arr : List T) (payload : List Nat) :
    distributePayload (compactPayload arr payload) payload = arr := by
  induction hn : arr.length using Nat.strong_induction_on generalizing arr payload with
  | _ n ih =>
    rw [distributePayload, compactPayload_length]
    simp only [hn]
    split
    · rw [compactPayload]
      simp [*]
    obtain ⟨t, hlog, hlow, hhigh⟩ := log2_split (show 1 < n by omega)
    rw [hlog]
    split
    · rw [compactPayload]
      simp only [hn, hlog]
      rw [if_neg (by omega), if_pos (by omega)]
      exact distributePow2_compactPow2 (show arr.length = 2 ^ (t + 1) by omega) payload 0
    rename_i tail
    rw [compactPayload]
    simp only [hn, hlog]
    rw [if_neg (by omega), if_neg (by omega)]
    generalize hm : payload.getD (n - 2 ^ (t + 1)) 0 - payload.getD 0 0 = m
    have lenT : (arr.take (n - 2 ^ (t + 1))).length = n - 2 ^ (t + 1) := by
      rw [List.length_take]
      omega
    have lenD : (arr.drop (n - 2 ^ (t + 1))).length = 2 ^ (t + 1) := by
      rw [List.length_drop]
      omega
    have backL := ih _ (by omega) _ (payload.take (n - 2 ^ (t + 1) + 1)) lenT
    have backR := distributePow2_compactPow2 lenD (payload.drop (n - 2 ^ (t + 1)))
      ((2 ^ (t + 1) - (n - 2 ^ (t + 1)) + m) % 2 ^ (t + 1))
    have lenL : (compactPayload (arr.take (n - 2 ^ (t + 1))) (payload.take (n - 2 ^ (t + 1) + 1))).length =
        n - 2 ^ (t + 1) := (compactPayload_length _ _).trans lenT
    have total : (compactPayload (arr.take (n - 2 ^ (t + 1))) (payload.take (n - 2 ^ (t + 1) + 1)) ++
        compactPow2 (arr.drop (n - 2 ^ (t + 1))) (payload.drop (n - 2 ^ (t + 1)))
          ((2 ^ (t + 1) - (n - 2 ^ (t + 1)) + m) % 2 ^ (t + 1))).length = n := by
      rw [List.length_append, lenL, compactPow2_length, lenD]
      omega
    rw [swapColumns_swapColumns (by omega) (by omega), List.take_left' lenL, List.drop_left' lenL, backL, backR,
      List.take_append_drop]

end Inverse

section Spec
variable {arr : List T} {marks : List Nat}

/-- Compaction is tight and stable: the marked elements fill the front in their order,
and the others are permuted behind them. -/
theorem compactPayload_compacts (size : marks.length = arr.length + 1) (steps : UnitSteps marks) :
    (compactPayload arr marks).take (marks.getLastD 0 - marks.headD 0) = select (stepsOf marks) arr ∧
    ((compactPayload arr marks).drop (marks.getLastD 0 - marks.headD 0)).Perm
      (select ((stepsOf marks).map not) arr) := by
  cases marks with
  | nil => simp at size
  | cons c marks =>
    have flags : (stepsOf (c :: marks)).length = arr.length := by
      rw [stepsOf_length, size]
      rfl
    rw [List.headD_cons, ← getLast_marks steps]
    have front : (compactPayload arr (c :: marks)).take ((stepsOf (c :: marks)).count true) =
        select (stepsOf (c :: marks)) arr := by
      apply take_eq_select flags (compactPayload_length _ _).ge
      intro i hi
      have place := compactPayload_place (c := c) flags hi
      rwa [marksFrom_stepsOf steps] at place
    refine ⟨front, ?_⟩
    have whole := (compactPayload_perm arr (c :: marks)).trans (select_perm flags).symm
    rw [← List.take_append_drop ((stepsOf (c :: marks)).count true) (compactPayload arr (c :: marks)), front] at whole
    exact (List.perm_append_left_iff _).mp whole

theorem compactPayload_compacts_three : (compactPayload [7, 8, 9] [4, 4, 5, 6]).take 2 = [8, 9] := by
  have size : [4, 4, 5, 6].length = [7, 8, 9].length + 1 := rfl
  have steps : UnitSteps [4, 4, 5, 6] := by rw [UnitSteps]; decide
  exact (compactPayload_compacts size steps).1

/-- Distribution and compaction are inverse to each other, so the prefix goes to the marked slots in order. -/
theorem distributePayload_inverse (size : marks.length = arr.length + 1) (steps : UnitSteps marks) :
    distributePayload (compactPayload arr marks) marks = arr ∧
    compactPayload (distributePayload arr marks) marks = arr ∧
    select (stepsOf marks) (distributePayload arr marks) = arr.take (marks.getLastD 0 - marks.headD 0) := by
  have back := (compactPayload_distributePayload arr marks).2
  have placed := @compactPayload_compacts _ (distributePayload arr marks) marks
    (by rw [distributePayload_length, size]) steps
  rw [back] at placed
  exact ⟨distributePayload_compactPayload arr marks, back, placed.1.symm⟩

theorem distributePayload_inverse_three :
    distributePayload (compactPayload [7, 8, 9] [4, 4, 5, 6]) [4, 4, 5, 6] = [7, 8, 9] := by
  have size : [4, 4, 5, 6].length = [7, 8, 9].length + 1 := rfl
  have steps : UnitSteps [4, 4, 5, 6] := by rw [UnitSteps]; decide
  exact (distributePayload_inverse size steps).1

end Spec
end Roga
