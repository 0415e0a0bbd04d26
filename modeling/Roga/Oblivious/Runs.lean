import Mathlib.Data.List.TakeWhile
import Roga.Oblivious.Reduction

/-! What run reduction does to each maximal run, sorted or not, and which of its
branch-free additions overflow. -/
namespace Roga
open Ct
variable {K : Nat} {V : Type}

/-- `run` holds real blocks with payload `p`, and neither neighbour continues it. -/
structure MaximalRun (p : Vector UInt8 K) (pre run post : List (OramBlock K V)) : Prop where
  copies : ∀ b ∈ run, b.isReal = true ∧ b.payload = p
  before : ∀ b, pre.getLast? = some b → ¬ (b.isReal = true ∧ b.payload = p)
  after : ∀ b, post.head? = some b → ¬ (b.isReal = true ∧ b.payload = p)

/-- What is left of the run `first :: rest`: the last block with the sum of the values from
left to right and the least epoch. -/
structure Remains [Add V] (first : OramBlock K V) (rest : List (OramBlock K V)) (left : OramBlock K V) : Prop where
  tag : left.tag = (rest.getLastD first).tag
  payload : left.payload = (rest.getLastD first).payload
  value : left.value = (rest.map OramBlock.value).foldl (· + ·) first.value
  epoch_le : ∀ b ∈ first :: rest, left.epoch ≤ b.epoch
  epoch_mem : ∃ b ∈ first :: rest, left.epoch = b.epoch

theorem joins_iff {prev cur : OramBlock K V} :
    joins prev cur = true ↔ (prev.isReal = true ∧ cur.isReal = true) ∧ cur.payload = prev.payload := by
  rw [joins, Bool.and_eq_true, Bool.and_eq_true, decide_eq_true_eq]

theorem ctMinU8_le (a b : UInt8) : ctMinU8 a b ≤ a ∧ ctMinU8 a b ≤ b ∧ (ctMinU8 a b = a ∨ ctMinU8 a b = b) := by
  have value := ctMinU8_toNat a b
  refine ⟨UInt8.le_iff_toNat_le.mpr (by omega), UInt8.le_iff_toNat_le.mpr (by omega), ?_⟩
  rcases Nat.le_total a.toNat b.toNat with le | le
  · exact .inl (UInt8.toNat_inj.mp (by omega))
  · exact .inr (UInt8.toNat_inj.mp (by omega))

section Runs
variable [Add V]

/-- Reduction does not look across a pair that does not join. -/
theorem mergeRuns_append {prev next : OramBlock K V} {xs ys : List (OramBlock K V)}
    (apart : joins (xs.getLastD prev) next = false) :
    mergeRuns prev (xs ++ next :: ys) = mergeRuns prev xs ++ mergeRuns next ys := by
  induction xs generalizing prev with
  | nil =>
    have alone : ¬ joins prev next = true := by simpa using apart
    exact (if_neg alone : _ = prev :: mergeRuns next ys)
  | cons cur xs ih =>
    rw [List.getLastD_cons] at apart
    rw [List.cons_append, mergeRuns, mergeRuns]
    split
    · have same : joins (xs.getLastD (absorbRun prev cur)) next = false := by
        cases xs with
        | nil => exact apart
        | cons a xs => simpa only [List.getLastD_cons] using apart
      rw [ih same, List.cons_append]
    · rw [ih apart, List.cons_append]

theorem reduceEqualRuns_append [Inhabited V] {next : OramBlock K V} {xs ys : List (OramBlock K V)}
    (apart : ∀ b, xs.getLast? = some b → joins b next = false) :
    reduceEqualRuns (xs ++ next :: ys) = reduceEqualRuns xs ++ reduceEqualRuns (next :: ys) := by
  cases xs with
  | nil => rfl
  | cons first xs =>
    rw [List.cons_append, reduceEqualRuns_cons, reduceEqualRuns_cons, reduceEqualRuns_cons]
    apply mergeRuns_append
    exact apart _ (by rw [List.getLast?_cons, List.getLastD_eq_getLast?])

/-- A run is folded into its last block. -/
theorem mergeRuns_run {p : Vector UInt8 K} {first : OramBlock K V} {rest : List (OramBlock K V)}
    (copies : ∀ b ∈ first :: rest, b.isReal = true ∧ b.payload = p) :
    ∃ dummies left, mergeRuns first rest = dummies ++ [left] ∧ (∀ b ∈ dummies, b.isReal = false) ∧
      Remains first rest left := by
  induction rest generalizing first with
  | nil =>
    refine ⟨[], first, rfl, by simp, rfl, rfl, rfl, ?_, first, .head _, rfl⟩
    intro b hb
    exact UInt8.le_of_eq (congrArg OramBlock.epoch (List.mem_singleton.mp hb).symm)
  | cons cur rest ih =>
    obtain ⟨real, payload⟩ := copies first (.head _)
    obtain ⟨real', payload'⟩ := copies cur (.tail _ (.head _))
    have together : joins first cur = true := joins_iff.mpr ⟨⟨real, real'⟩, payload'.trans payload.symm⟩
    obtain ⟨dummies, left, run, silent, remains⟩ := @ih (absorbRun first cur) fun b hb => by
      rcases List.mem_cons.mp hb with rfl | hb
      · exact ⟨real', payload'⟩
      · exact copies b (.tail _ (.tail _ hb))
    obtain ⟨below, below', one⟩ := ctMinU8_le first.epoch cur.epoch
    refine ⟨{ first with tag := 0 } :: dummies, left, by rw [mergeRuns, if_pos together, run]; rfl, ?_, ?_⟩
    · intro b hb
      rcases List.mem_cons.mp hb with rfl | hb
      · rfl
      · exact silent b hb
    have last : ∀ {T : Type} (f : OramBlock K V → T), f (absorbRun first cur) = f cur →
        f (rest.getLastD (absorbRun first cur)) = f (rest.getLastD cur) := fun f same => by
      cases rest with
      | nil => exact same
      | cons a rest => rw [List.getLastD_cons, List.getLastD_cons]
    constructor
    · rw [remains.tag, List.getLastD_cons, last OramBlock.tag rfl]
    · rw [remains.payload, List.getLastD_cons, last OramBlock.payload rfl]
    · exact remains.value
    · have least := remains.epoch_le (absorbRun first cur) (.head _)
      intro b hb
      rcases List.mem_cons.mp hb with rfl | hb
      · exact UInt8.le_trans least below
      rcases List.mem_cons.mp hb with rfl | hb
      · exact UInt8.le_trans least below'
      · exact remains.epoch_le b (.tail _ hb)
    · obtain ⟨b, hb, same⟩ := remains.epoch_mem
      rcases List.mem_cons.mp hb with rfl | hb
      · rcases one with one | one
        · exact ⟨first, .head _, same.trans one⟩
        · exact ⟨cur, .tail _ (.head _), same.trans one⟩
      · exact ⟨b, .tail _ (.tail _ hb), same⟩

theorem mergeRuns_dummies (prev : OramBlock K V) (rest : List (OramBlock K V)) :
    List.Forall₂ (fun a b => a.isReal = false → b = a) (prev :: rest) (mergeRuns prev rest) := by
  induction rest generalizing prev with
  | nil => exact .cons (fun _ => rfl) .nil
  | cons cur rest ih =>
    rw [mergeRuns]
    split
    · rename_i together
      obtain ⟨⟨real, real'⟩, -⟩ := joins_iff.mp together
      obtain ⟨head, out, -, tail, run⟩ := List.forall₂_cons_left_iff.mp (ih (absorbRun prev cur))
      rw [run]
      exact .cons (fun dummy => absurd dummy (by simp [real])) (.cons (fun dummy => absurd dummy (by simp [real'])) tail)
    · exact .cons (fun _ => rfl) (ih cur)

variable [Inhabited V]

/-- Dummies stay as they are, stale fields included. -/
theorem reduceEqualRuns_dummies (blocks : List (OramBlock K V)) :
    List.Forall₂ (fun a b => a.isReal = false → b = a) blocks (reduceEqualRuns blocks) := by
  cases blocks with
  | nil => exact .nil
  | cons first rest =>
    rw [reduceEqualRuns_cons]
    exact mergeRuns_dummies first rest

/-- On every slice, sorted or not: slots keep their place, dummies stay dummies, and of a maximal
run the last block alone stays real, with the run's sum and least epoch. -/
theorem reduceEqualRuns_runs (blocks : List (OramBlock K V)) :
    List.Forall₂ (fun a b => b.payload = a.payload ∧ (b.tag = a.tag ∨ b.tag = 0)) blocks (reduceEqualRuns blocks) ∧
    List.Forall₂ (fun a b => a.isReal = false → b = a) blocks (reduceEqualRuns blocks) ∧
    ∀ p pre first rest post, blocks = pre ++ (first :: rest) ++ post → MaximalRun p pre (first :: rest) post →
      ∃ dummies left, ((reduceEqualRuns blocks).drop pre.length).take (rest.length + 1) = dummies ++ [left] ∧
        (∀ b ∈ dummies, b.isReal = false) ∧ left.isReal = true ∧ Remains first rest left := by
  refine ⟨reduceEqualRuns_fields blocks, reduceEqualRuns_dummies blocks, ?_⟩
  rintro p pre first rest post rfl maximal
  obtain ⟨real, payload⟩ := maximal.copies first (.head _)
  have before : ∀ b, pre.getLast? = some b → joins b first = false := by
    intro b hb
    by_contra together
    obtain ⟨⟨hr, -⟩, same⟩ := joins_iff.mp (Bool.eq_true_of_not_eq_false together)
    exact maximal.before b hb ⟨hr, same.symm.trans payload⟩
  have run : reduceEqualRuns ((first :: rest) ++ post) = mergeRuns first rest ++ reduceEqualRuns post := by
    rw [← reduceEqualRuns_cons]
    cases post with
    | nil => rw [List.append_nil, reduceEqualRuns, List.append_nil]
    | cons next post =>
      apply reduceEqualRuns_append
      intro b hb
      obtain ⟨-, same⟩ := maximal.copies b (List.mem_of_getLast? hb)
      by_contra together
      obtain ⟨⟨-, hr⟩, next_same⟩ := joins_iff.mp (Bool.eq_true_of_not_eq_false together)
      exact maximal.after next rfl ⟨hr, next_same.trans same⟩
  obtain ⟨dummies, left, folded, silent, remains⟩ := mergeRuns_run maximal.copies
  refine ⟨dummies, left, ?_, silent, ?_, remains⟩
  · rw [List.append_assoc, List.cons_append, reduceEqualRuns_append before, List.drop_left' (reduceEqualRuns_length pre),
      ← List.cons_append, run, List.take_left' (mergeRuns_length first rest), folded]
  · have last := (maximal.copies _ List.getLastD_mem_cons).1
    exact OramBlock.isReal_iff.mpr (remains.tag ▸ OramBlock.isReal_iff.mp last)

end Runs

section Accumulator

/-- The loop of `reduce_equal_runs_with_accumulator` when `combine` may abort. -/
def reduceRestWithAccumulator (combine : V → V → Option V) (accVal : V) (accEpoch : UInt8) (prev : OramBlock K V) :
    List (OramBlock K V) → Option (List (OramBlock K V))
  | [] => some [prev]
  | cur :: rest => do
    let v := cur.value
    let e := cur.epoch
    let curReal := cur.ctIsReal
    let same := cur.ctIdentityEq prev &&& curReal &&& prev.ctIsReal
    let startNew := curReal &&& ctNot same
    let combinedVal ← combine accVal v
    let minEpoch := ctMinU8 accEpoch e
    let accVal := cmovnz (cmovnz accVal combinedVal same) v startNew
    let accEpoch := cmovnz (cmovnz accEpoch minEpoch same) e startNew
    let cur := { cur with
      value := cmovnz cur.value accVal curReal
      epoch := cmovnz cur.epoch accEpoch curReal }
    return prev.conditionalDummy same :: (← reduceRestWithAccumulator combine accVal accEpoch cur rest)

def reduceEqualRunsWithAccumulator [Inhabited V] (combine : V → V → Option V) :
    List (OramBlock K V) → Option (List (OramBlock K V))
  | [] => some []
  | first :: rest =>
    let firstReal := first.ctIsReal
    let accVal := cmovnz (default : V) first.value firstReal
    let accEpoch := cmovnz (0 : UInt8) first.epoch firstReal
    let first := { first with
      value := cmovnz first.value accVal firstReal
      epoch := cmovnz first.epoch accEpoch firstReal }
    reduceRestWithAccumulator combine accVal accEpoch first rest

/-- Additions that do not abort give the plain reduction. -/
theorem reduceRestWithAccumulator_eq [Add V] {combine : V → V → Option V}
    (adds : ∀ a b c, combine a b = some c → c = a + b) {accVal : V} {accEpoch : UInt8} {prev : OramBlock K V}
    {rest out : List (OramBlock K V)} (run : reduceRestWithAccumulator combine accVal accEpoch prev rest = some out) :
    out = reduceRest accVal accEpoch prev rest := by
  induction rest generalizing accVal accEpoch prev out with
  | nil =>
    cases run
    rfl
  | cons cur rest ih =>
    rw [reduceRestWithAccumulator] at run
    obtain ⟨combined, sum, run⟩ := Option.bind_eq_some_iff.mp run
    obtain ⟨tail, reduced, run⟩ := Option.bind_eq_some_iff.mp run
    cases run
    rw [adds _ _ _ sum] at reduced
    exact congrArg _ (ih (adds _ _ _ sum ▸ reduced))

theorem reduceEqualRunsWithAccumulator_eq [Add V] [Inhabited V] {combine : V → V → Option V}
    (adds : ∀ a b c, combine a b = some c → c = a + b) {blocks out : List (OramBlock K V)}
    (run : reduceEqualRunsWithAccumulator combine blocks = some out) : out = reduceEqualRuns blocks := by
  cases blocks with
  | nil =>
    cases run
    rfl
  | cons first rest => exact reduceRestWithAccumulator_eq adds run

/-- `a + b` on `u64` with overflow checks. -/
def checkedAdd (a b : UInt64) : Option UInt64 := if a.toNat + b.toNat < 2 ^ 64 then some (a + b) else none

theorem checkedAdd_isSome (a b : UInt64) : (checkedAdd a b).isSome = true ↔ a.toNat + b.toNat < 2 ^ 64 := by
  rw [checkedAdd]
  split <;> simp_all

theorem checkedAdd_eq {a b c : UInt64} (run : checkedAdd a b = some c) :
    c = a + b ∧ c.toNat = a.toNat + b.toNat := by
  rw [checkedAdd] at run
  split at run
  · rename_i fits
    cases run
    exact ⟨rfl, by rw [UInt64.toNat_add, Nat.mod_eq_of_lt fits]⟩
  · simp at run

end Accumulator

section Overflow

/-- The blocks of the run that the last real block of a slice ends, last first. -/
def lastRun (blocks : List (OramBlock K V)) : List (OramBlock K V) :=
  match blocks.reverse.dropWhile fun b => !b.isReal with
  | [] => []
  | last :: before => last :: before.takeWhile fun b => b.isReal && decide (b.payload = last.payload)

/-- The sum of the values as numbers. -/
def totalOf (blocks : List (OramBlock K UInt64)) : Nat := (blocks.map fun b => b.value.toNat).sum

theorem lastRun_dummy {blocks : List (OramBlock K V)} {b : OramBlock K V} (dummy : b.isReal = false) :
    lastRun (blocks ++ [b]) = lastRun blocks := by
  rw [lastRun, lastRun, List.reverse_append, List.reverse_singleton, List.singleton_append,
    List.dropWhile_cons_of_pos (by simp [dummy])]

theorem lastRun_join {blocks : List (OramBlock K V)} {prev b : OramBlock K V} (together : joins prev b = true) :
    lastRun (blocks ++ [prev] ++ [b]) = b :: lastRun (blocks ++ [prev]) := by
  obtain ⟨⟨real, real'⟩, same⟩ := joins_iff.mp together
  rw [lastRun, lastRun, List.reverse_append, List.reverse_singleton, List.singleton_append,
    List.dropWhile_cons_of_neg (by simp [real']), List.reverse_append, List.reverse_singleton, List.singleton_append,
    List.dropWhile_cons_of_neg (by simp [real])]
  simp only [same]
  rw [List.takeWhile_cons_of_pos (by simp [real])]

theorem lastRun_start {blocks : List (OramBlock K V)} {prev b : OramBlock K V} (real : b.isReal = true)
    (apart : joins prev b = false) : lastRun (blocks ++ [prev] ++ [b]) = [b] := by
  rw [lastRun, List.reverse_append, List.reverse_singleton, List.singleton_append,
    List.dropWhile_cons_of_neg (by simp [real]), List.reverse_append, List.reverse_singleton, List.singleton_append]
  simp only
  rw [List.takeWhile_cons_of_neg]
  intro copy
  obtain ⟨hr, same⟩ := Bool.and_eq_true_iff.mp copy
  rw [joins_iff.mpr ⟨⟨hr, real⟩, (of_decide_eq_true same).symm⟩] at apart
  exact Bool.noConfusion apart

theorem lastRun_single (b : OramBlock K V) : lastRun [b] = if b.isReal then [b] else [] := by
  rw [lastRun]
  cases h : b.isReal <;> simp [h]

/-- No addition of the loop overflows if and only if the run that ends at the last real block
before a slot leaves room for the slot's value. -/
theorem reduceRestWithAccumulator_isSome {before : List (OramBlock K UInt64)} {acc : UInt64} {accEpoch : UInt8}
    {prev last : OramBlock K UInt64} {rest : List (OramBlock K UInt64)} (flags : prev.isReal = last.isReal)
    (payload : prev.payload = last.payload) (sum : acc.toNat = totalOf (lastRun (before ++ [last]))) :
    (reduceRestWithAccumulator checkedAdd acc accEpoch prev rest).isSome = true ↔
      ∀ mid cur post, rest = mid ++ cur :: post →
        totalOf (lastRun (before ++ last :: mid)) + cur.value.toNat < 2 ^ 64 := by
  induction rest generalizing before acc accEpoch prev last with
  | nil => simp [reduceRestWithAccumulator]
  | cons cur rest ih =>
    have flag : (decide (cur.payload = prev.payload) && cur.isReal && prev.isReal) = joins last cur := by
      rw [joins, flags, payload, Bool.and_right_comm, Bool.and_assoc, Bool.and_comm]
    have first : (∀ mid cur' post, cur :: rest = mid ++ cur' :: post →
        totalOf (lastRun (before ++ last :: mid)) + cur'.value.toNat < 2 ^ 64) ↔
        totalOf (lastRun (before ++ [last])) + cur.value.toNat < 2 ^ 64 ∧
          ∀ mid cur' post, rest = mid ++ cur' :: post →
            totalOf (lastRun (before ++ [last] ++ cur :: mid)) + cur'.value.toNat < 2 ^ 64 := by
      constructor
      · intro all
        refine ⟨all [] cur rest rfl, ?_⟩
        rintro mid cur' post rfl
        simpa only [List.append_assoc, List.singleton_append] using all (cur :: mid) cur' post rfl
      · rintro ⟨head, tail⟩ mid cur' post split
        cases mid with
        | nil =>
          obtain ⟨rfl, rfl⟩ := List.cons.inj split
          exact head
        | cons a mid =>
          obtain ⟨rfl, rest⟩ := List.cons.inj split
          simpa only [List.append_assoc, List.singleton_append] using tail mid cur' post rest
    have anyway : ∀ out : Option (List (OramBlock K UInt64)), (out.any fun _ => true) = true ↔ out.isSome = true :=
      fun out => by cases out <;> rfl
    rw [first, reduceRestWithAccumulator]
    cases room : checkedAdd acc cur.value with
    | none =>
      have full : ¬ totalOf (lastRun (before ++ [last])) + cur.value.toNat < 2 ^ 64 := by
        rw [← sum, ← checkedAdd_isSome, room]
        exact Bool.false_ne_true
      exact iff_of_false (by simp) fun room => full room.1
    | some combined =>
      obtain ⟨-, value⟩ := checkedAdd_eq room
      have fits : totalOf (lastRun (before ++ [last])) + cur.value.toNat < 2 ^ 64 := by
        rw [← sum, ← checkedAdd_isSome, room]
        rfl
      simp only [OramBlock.ctIdentityEq_spec, OramBlock.ctIsReal_isReal, toUInt8_and, ctNot_toUInt8, cmovnz_toUInt8,
        flag, Option.bind_eq_bind, Option.bind_some, Option.pure_def, Option.isSome_bind, Option.isSome_some, fits, true_and]
      cases together : joins last cur with
      | true =>
        obtain ⟨⟨real, real'⟩, same⟩ := joins_iff.mp together
        simp only [real', Bool.not_true, Bool.and_false, Bool.false_eq_true, if_false, if_true]
        refine (anyway _).trans (@ih (before ++ [last]) _ _ _ cur rfl rfl ?_)
        rw [lastRun_join together, value, sum, totalOf, totalOf, List.map_cons, List.sum_cons, Nat.add_comm]
      | false =>
        cases real : cur.isReal with
        | true =>
          simp only [Bool.not_false, Bool.and_true, Bool.false_eq_true, if_false, if_true]
          refine (anyway _).trans (@ih (before ++ [last]) _ _ _ cur rfl rfl ?_)
          rw [lastRun_start real together]
          exact (Nat.add_zero _).symm
        | false =>
          simp only [Bool.false_and, Bool.false_eq_true, if_false]
          refine (anyway _).trans (@ih (before ++ [last]) _ _ _ cur rfl rfl ?_)
          rw [lastRun_dummy real, sum]

/-- The additions of a slice: none overflows if and only if every slot has room above the run
that the last real block before it ends. -/
theorem reduceEqualRunsWithAccumulator_isSome (blocks : List (OramBlock K UInt64)) :
    (reduceEqualRunsWithAccumulator checkedAdd blocks).isSome = true ↔
      ∀ pre cur post, blocks = pre ++ cur :: post → totalOf (lastRun pre) + cur.value.toNat < 2 ^ 64 := by
  have alone : ∀ cur : OramBlock K UInt64, totalOf (lastRun ([] : List (OramBlock K UInt64))) + cur.value.toNat < 2 ^ 64 := by
    intro cur
    have small := cur.value.toNat_lt
    exact (Nat.zero_add cur.value.toNat).symm ▸ small
  cases blocks with
  | nil => simp [reduceEqualRunsWithAccumulator]
  | cons first rest =>
    rw [reduceEqualRunsWithAccumulator]
    simp only [OramBlock.ctIsReal_isReal, cmovnz_toUInt8]
    have start : (if first.isReal then first.value else default).toNat = totalOf (lastRun ([] ++ [first])) := by
      rw [List.nil_append, lastRun_single]
      cases first.isReal <;> rfl
    refine Iff.trans (@reduceRestWithAccumulator_isSome K [] _ _ _ first rest rfl rfl start) ?_
    constructor
    · intro all pre cur post split
      cases pre with
      | nil => exact alone cur
      | cons a pre =>
        obtain ⟨rfl, rest⟩ := List.cons.inj split
        exact all pre cur post rest
    · rintro all mid cur post rfl
      exact all (first :: mid) cur post rfl

/-- The run of a last block, continued in the blocks after it, is maximal. -/
theorem exists_maximalRun {xs : List (OramBlock K V)} {b : OramBlock K V} (real : b.isReal = true)
    (post : List (OramBlock K V)) : ∃ pre more post', MaximalRun b.payload pre ((lastRun (xs ++ [b])).reverse ++ more) post' ∧
      xs ++ [b] ++ post = pre ++ ((lastRun (xs ++ [b])).reverse ++ more) ++ post' := by
  let copy : OramBlock K V → Bool := fun c => c.isReal && decide (c.payload = b.payload)
  have copy_iff : ∀ c, copy c = true ↔ c.isReal = true ∧ c.payload = b.payload := fun c => by
    rw [Bool.and_eq_true, decide_eq_true_eq]
  have run : lastRun (xs ++ [b]) = b :: xs.reverse.takeWhile copy := by
    rw [lastRun, List.reverse_append, List.reverse_singleton, List.singleton_append,
      List.dropWhile_cons_of_neg (by simp [real])]
  refine ⟨(xs.reverse.dropWhile copy).reverse, post.takeWhile copy, post.dropWhile copy, ⟨?_, ?_, ?_⟩, ?_⟩
  · intro c hc
    rw [run] at hc
    rcases List.mem_append.mp hc with hc | hc
    · rcases List.mem_cons.mp (List.mem_reverse.mp hc) with rfl | hc
      · exact ⟨real, rfl⟩
      · exact (copy_iff c).mp (List.mem_takeWhile_imp hc)
    · exact (copy_iff c).mp (List.mem_takeWhile_imp hc)
  · intro c hc same
    rw [List.getLast?_reverse] at hc
    have stop := List.head?_dropWhile_not copy xs.reverse
    rw [hc] at stop
    exact Bool.noConfusion (((copy_iff c).mpr same).symm.trans stop)
  · intro c hc same
    have stop := List.head?_dropWhile_not copy post
    rw [hc] at stop
    exact Bool.noConfusion (((copy_iff c).mpr same).symm.trans stop)
  · have front : (xs.reverse.dropWhile copy).reverse ++ (xs.reverse.takeWhile copy).reverse = xs := by
      rw [← List.reverse_append, List.takeWhile_append_dropWhile, List.reverse_reverse]
    have back : post.takeWhile copy ++ post.dropWhile copy = post := List.takeWhile_append_dropWhile
    rw [run, List.reverse_cons]
    simp only [List.append_assoc]
    rw [back, ← List.append_assoc _ _ ([b] ++ post), front]

/-- The values of each maximal run sum to less than `2^64`. -/
def RunsFit (blocks : List (OramBlock K UInt64)) : Prop :=
  ∀ p pre run post, blocks = pre ++ run ++ post → MaximalRun p pre run post → totalOf run < 2 ^ 64

/-- When every run fits, the additions that can overflow are those of slots that do not continue the
run before them, whose result is thrown away; without an overflow the outcome is the reduction. -/
theorem reduceEqualRuns_no_overflow_iff {blocks : List (OramBlock K UInt64)} (fits : RunsFit blocks) :
    (reduceEqualRunsWithAccumulator checkedAdd blocks = some (reduceEqualRuns blocks) ↔
      ∀ pre cur post, blocks = pre ++ cur :: post → (∀ prev, pre.getLast? = some prev → joins prev cur = false) →
        totalOf (lastRun pre) + cur.value.toNat < 2 ^ 64) ∧
    (reduceEqualRunsWithAccumulator checkedAdd blocks = none ∨
      reduceEqualRunsWithAccumulator checkedAdd blocks = some (reduceEqualRuns blocks)) := by
  have only : ∀ out, reduceEqualRunsWithAccumulator checkedAdd blocks = some out → out = reduceEqualRuns blocks :=
    fun out run => reduceEqualRunsWithAccumulator_eq (fun _ _ _ sum => (checkedAdd_eq sum).1) run
  have outcome : reduceEqualRunsWithAccumulator checkedAdd blocks = some (reduceEqualRuns blocks) ↔
      (reduceEqualRunsWithAccumulator checkedAdd blocks).isSome = true := by
    constructor
    · intro run
      rw [run]
      rfl
    · intro some
      obtain ⟨out, run⟩ := Option.isSome_iff_exists.mp some
      rw [run, only out run]
  refine ⟨outcome.trans ?_, ?_⟩
  swap
  · cases run : reduceEqualRunsWithAccumulator checkedAdd blocks with
    | none => exact .inl rfl
    | some out => exact .inr (congrArg some (only out run))
  rw [reduceEqualRunsWithAccumulator_isSome]
  constructor
  · intro all pre cur post split _
    exact all pre cur post split
  · intro across pre cur post split
    by_cases apart : ∀ prev, pre.getLast? = some prev → joins prev cur = false
    · exact across pre cur post split apart
    · obtain ⟨prev, last, together⟩ : ∃ prev, pre.getLast? = some prev ∧ joins prev cur = true := by
        simpa using apart
      obtain ⟨xs, rfl⟩ := List.getLast?_eq_some_iff.mp last
      obtain ⟨⟨-, real⟩, -⟩ := joins_iff.mp together
      obtain ⟨pre', more, post', maximal, whole⟩ := @exists_maximalRun _ _ (xs ++ [prev]) _ real post
      have total := fits cur.payload pre' _ post' (by rw [split, ← whole]; simp) maximal
      rw [lastRun_join together, totalOf, List.map_append, List.sum_append, List.map_reverse, List.sum_reverse,
        List.map_cons, List.sum_cons] at total
      rw [totalOf]
      omega

/-- Two keys side by side. -/
def neighbours (a b : UInt64) : List (OramBlock 1 UInt64) := [⟨1, 0, a, .replicate 1 1⟩, ⟨2, 0, b, .replicate 1 2⟩]

/-- Its maximal runs have at most one block each. -/
theorem neighbours_fit (a b : UInt64) : RunsFit (neighbours a b) := by
  intro p pre run post split maximal
  have part : run.Sublist (neighbours a b) := by
    rw [split, List.append_assoc]
    exact (List.sublist_append_left run post).trans (List.sublist_append_right pre _)
  have short : run.length ≤ 1 := by
    by_contra long
    have whole : run = neighbours a b := part.eq_of_length_le (by
      rw [neighbours]
      simp only [List.length_cons, List.length_nil]
      omega)
    have first := (maximal.copies ⟨1, 0, a, #v[1]⟩ (by rw [whole]; exact .head _)).2
    have second := (maximal.copies ⟨2, 0, b, #v[2]⟩ (by rw [whole]; exact .tail _ (.head _))).2
    exact absurd (first.trans second.symm) (show (#v[1] : Vector UInt8 1) ≠ #v[2] by decide)
  match run, short with
  | [], _ => exact Nat.two_pow_pos 64
  | [c], _ =>
    rw [totalOf, List.map_singleton, List.sum_singleton]
    exact c.value.toNat_lt

theorem reduceEqualRuns_no_overflow_neighbours :
    reduceEqualRunsWithAccumulator checkedAdd (neighbours 7 8) = some (reduceEqualRuns (neighbours 7 8)) :=
  (reduceEqualRuns_no_overflow_iff (neighbours_fit 7 8)).2.resolve_left (by decide +kernel)

/-- The values of two different keys are added and the sum is thrown away. -/
theorem neighbours_overflow : RunsFit (neighbours (2 ^ 64 - 1) 1) ∧
    reduceEqualRunsWithAccumulator checkedAdd (neighbours (2 ^ 64 - 1) 1) = none :=
  ⟨neighbours_fit _ _, by decide +kernel⟩

end Overflow
end Roga
