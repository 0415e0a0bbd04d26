import Roga.Oblivious.Mass

/-! Run reduction of `reduction.rs`: equal neighbours are added into the last
of their run, which conserves the mass of every payload. -/
namespace Roga
open Ct Reals
variable {K : Nat} {V : Type}

section Model
variable [Add V]

/-- The loop over `rest` with its accumulators and `prev`, which is emitted
once the next slot has decided whether it stays real. -/
def reduceRest (accVal : V) (accEpoch : UInt8) (prev : OramBlock K V) :
    List (OramBlock K V) → List (OramBlock K V)
  | [] => [prev]
  | cur :: rest =>
    let v := cur.value
    let e := cur.epoch
    let curReal := cur.ctIsReal
    let same := cur.ctIdentityEq prev &&& curReal &&& prev.ctIsReal
    let startNew := curReal &&& ctNot same
    let combinedVal := accVal + v
    let minEpoch := ctMinU8 accEpoch e
    let accVal := cmovnz (cmovnz accVal combinedVal same) v startNew
    let accEpoch := cmovnz (cmovnz accEpoch minEpoch same) e startNew
    let cur := { cur with
      value := cmovnz cur.value accVal curReal
      epoch := cmovnz cur.epoch accEpoch curReal }
    prev.conditionalDummy same :: reduceRest accVal accEpoch cur rest

def reduceEqualRuns [Inhabited V] : List (OramBlock K V) → List (OramBlock K V)
  | [] => []
  | first :: rest =>
    let firstReal := first.ctIsReal
    let accVal := cmovnz (default : V) first.value firstReal
    let accEpoch := cmovnz (0 : UInt8) first.epoch firstReal
    let first := { first with
      value := cmovnz first.value accVal firstReal
      epoch := cmovnz first.epoch accEpoch firstReal }
    reduceRest accVal accEpoch first rest

end Model

/-- The last block of a run that has absorbed `prev`. -/
def absorbRun [Add V] (prev cur : OramBlock K V) : OramBlock K V :=
  { cur with value := prev.value + cur.value, epoch := ctMinU8 prev.epoch cur.epoch }

/-- Two neighbours of one run. -/
def joins (prev cur : OramBlock K V) : Bool :=
  prev.isReal && cur.isReal && decide (cur.payload = prev.payload)

/-- Reduction as neighbour merging, without accumulators. -/
def mergeRuns [Add V] : OramBlock K V → List (OramBlock K V) → List (OramBlock K V)
  | prev, [] => [prev]
  | prev, cur :: rest =>
    if joins prev cur then { prev with tag := 0 } :: mergeRuns (absorbRun prev cur) rest
    else prev :: mergeRuns cur rest

section Spec
variable [Add V]

theorem reduceRest_eq (prev : OramBlock K V) (rest : List (OramBlock K V)) (accVal : V)
    (accEpoch : UInt8) (carried : prev.isReal = true → accVal = prev.value ∧ accEpoch = prev.epoch) :
    reduceRest accVal accEpoch prev rest = mergeRuns prev rest := by
  induction rest generalizing prev accVal accEpoch with
  | nil => rfl
  | cons cur rest ih =>
    have flag : (decide (cur.payload = prev.payload) && cur.isReal && prev.isReal) = joins prev cur := by
      rw [joins, Bool.and_right_comm, Bool.and_assoc, Bool.and_comm]
    simp only [reduceRest, mergeRuns, OramBlock.ctIdentityEq_spec, OramBlock.ctIsReal_isReal,
      toUInt8_and, ctNot_toUInt8, cmovnz_toUInt8, OramBlock.conditionalDummy_toUInt8, flag]
    cases hj : joins prev cur with
    | true =>
      have together := hj
      simp only [joins, Bool.and_eq_true] at together
      obtain ⟨rfl, rfl⟩ := carried together.1.1
      simp only [together.1.2, if_true, Bool.not_true, Bool.and_false, Bool.false_eq_true, if_false]
      congr 1
      exact ih _ _ _ fun _ => ⟨rfl, rfl⟩
    | false =>
      simp only [Bool.not_false, Bool.and_true, Bool.false_eq_true, if_false]
      congr 1
      cases hc : cur.isReal with
      | true => exact ih _ _ _ fun _ => ⟨rfl, rfl⟩
      | false => exact ih _ _ _ fun h => absurd (hc ▸ h) (by decide)

theorem reduceEqualRuns_cons [Inhabited V] (first : OramBlock K V) (rest : List (OramBlock K V)) :
    reduceEqualRuns (first :: rest) = mergeRuns first rest := by
  simp only [reduceEqualRuns, OramBlock.ctIsReal_isReal, cmovnz_toUInt8]
  cases h : first.isReal with
  | false => exact reduceRest_eq _ _ _ _ fun hr => absurd (h ▸ hr) (by decide)
  | true => exact reduceRest_eq _ _ _ _ fun _ => ⟨rfl, rfl⟩

theorem mergeRuns_length (prev : OramBlock K V) (rest : List (OramBlock K V)) :
    (mergeRuns prev rest).length = rest.length + 1 := by
  induction rest generalizing prev with
  | nil => rfl
  | cons cur rest ih =>
    rw [mergeRuns]
    split <;> simp [ih]

theorem reduceEqualRuns_length [Inhabited V] (blocks : List (OramBlock K V)) :
    (reduceEqualRuns blocks).length = blocks.length := by
  cases blocks with
  | nil => rfl
  | cons first rest => rw [reduceEqualRuns_cons, mergeRuns_length, List.length_cons]

theorem mergeRuns_fields (prev : OramBlock K V) (rest : List (OramBlock K V)) :
    List.Forall₂ (fun a b => b.payload = a.payload ∧ (b.tag = a.tag ∨ b.tag = 0))
      (prev :: rest) (mergeRuns prev rest) := by
  induction rest generalizing prev with
  | nil => exact .cons ⟨rfl, .inl rfl⟩ .nil
  | cons cur rest ih =>
    rw [mergeRuns]
    split
    · obtain ⟨head, out, hhead, hout, hrun⟩ := List.forall₂_cons_left_iff.mp (ih (absorbRun prev cur))
      rw [hrun]
      exact .cons ⟨rfl, .inr rfl⟩ (.cons hhead hout)
    · exact .cons ⟨rfl, .inl rfl⟩ (ih cur)

/-- Slots keep their payload, and their tag unless they turn into a dummy. -/
theorem reduceEqualRuns_fields [Inhabited V] (blocks : List (OramBlock K V)) :
    List.Forall₂ (fun a b => b.payload = a.payload ∧ (b.tag = a.tag ∨ b.tag = 0))
      blocks (reduceEqualRuns blocks) := by
  cases blocks with
  | nil => exact .nil
  | cons first rest =>
    rw [reduceEqualRuns_cons]
    exact mergeRuns_fields first rest

end Spec

section Mass
variable {M : Type} [Add V] [AddCommSemigroup M] {f : V →ₙ+ M}

theorem weight_absorbRun (p : Vector UInt8 K) {prev cur : OramBlock K V} (h : joins prev cur = true) :
    weight f p (absorbRun prev cur) = weight f p prev + weight f p cur := by
  simp only [joins, Bool.and_eq_true, decide_eq_true_eq] at h
  obtain ⟨⟨hp, hc⟩, same⟩ := h
  have hr : (absorbRun prev cur).isReal = true := hc
  have pay : (absorbRun prev cur).payload = prev.payload := same
  by_cases hpay : prev.payload = p
  · rw [weight_real hr (pay.trans hpay), weight_real hp hpay, weight_real hc (same.trans hpay),
      ← WithZero.coe_add]
    simp [absorbRun, ctMinU8_toNat, Tropical.trop_min, map_add]
  · rw [weight_other (fun e => hpay (pay ▸ e)), weight_other hpay,
      weight_other (fun e => hpay (same ▸ e)), add_zero]

theorem mergeRuns_mass (p : Vector UInt8 K) (prev : OramBlock K V) (rest : List (OramBlock K V)) :
    mass f p (mergeRuns prev rest) = mass f p (prev :: rest) := by
  induction rest generalizing prev with
  | nil => rfl
  | cons cur rest ih =>
    rw [mergeRuns]
    split
    · rename_i h
      rw [mass_cons, ih, mass_cons, weight_absorbRun p h, weight_dummy rfl, zero_add, mass_cons,
        mass_cons, add_assoc]
    · rw [mass_cons, ih, ← mass_cons]

theorem reduceEqualRuns_mass [Inhabited V] (p : Vector UInt8 K) (blocks : List (OramBlock K V)) :
    mass f p (reduceEqualRuns blocks) = mass f p blocks := by
  cases blocks with
  | nil => rfl
  | cons first rest => rw [reduceEqualRuns_cons, mergeRuns_mass]

end Mass

/-- Real blocks of one payload stand next to each other. -/
def Grouped : List (OramBlock K V) → Prop
  | [] => True
  | a :: rest => (a.isReal = true → (∃ c ∈ rest, c.isReal = true ∧ c.payload = a.payload) →
      ∃ b, rest.head? = some b ∧ joins a b = true) ∧ Grouped rest

theorem mergeRuns_real [Add V] {prev : OramBlock K V} {rest : List (OramBlock K V)} {b : OramBlock K V}
    (hb : b ∈ mergeRuns prev rest) (hr : b.isReal = true) :
    ∃ a ∈ prev :: rest, a.isReal = true ∧ a.payload = b.payload ∧ a.tag = b.tag := by
  have fields := mergeRuns_fields prev rest
  generalize mergeRuns prev rest = out at fields hb
  generalize prev :: rest = ins at fields
  induction fields with
  | nil => simp at hb
  | cons hhead _ ih =>
    rcases List.mem_cons.mp hb with rfl | hb
    · have tag : _ := hhead.2.resolve_right (OramBlock.isReal_iff.mp hr)
      refine ⟨_, List.mem_cons_self, ?_, hhead.1.symm, tag.symm⟩
      rwa [OramBlock.isReal, ← tag]
    · obtain ⟨a, ha, rest⟩ := ih hb
      exact ⟨a, List.mem_cons_of_mem _ ha, rest⟩

theorem mergeRuns_nodup [Add V] {prev : OramBlock K V} {rest : List (OramBlock K V)}
    (grouped : Grouped (prev :: rest)) :
    ((reals (mergeRuns prev rest)).map OramBlock.payload).Nodup := by
  induction rest generalizing prev with
  | nil =>
    rw [mergeRuns]
    cases h : prev.isReal <;> simp [reals, h]
  | cons cur rest ih =>
    rw [mergeRuns]
    split
    · rw [reals_cons_dummy rfl]
      exact ih grouped.2
    · rename_i apart
      cases hp : prev.isReal with
      | false =>
        rw [reals_cons_dummy hp]
        exact ih grouped.2
      | true =>
        rw [reals_cons_real hp, List.map_cons, List.nodup_cons]
        refine ⟨fun h => ?_, ih grouped.2⟩
        obtain ⟨b, hb, pay⟩ := List.mem_map.mp h
        obtain ⟨hb, hr⟩ := mem_reals.mp hb
        obtain ⟨a, ha, har, hap, -⟩ := mergeRuns_real hb hr
        obtain ⟨next, hnext, hjoin⟩ := grouped.1 hp ⟨a, ha, har, hap.trans pay⟩
        rw [List.head?_cons, Option.some.injEq] at hnext
        exact apart (hnext ▸ hjoin)

theorem reduceEqualRuns_nodup [Add V] [Inhabited V] {blocks : List (OramBlock K V)}
    (grouped : Grouped blocks) : ((reals (reduceEqualRuns blocks)).map OramBlock.payload).Nodup := by
  cases blocks with
  | nil => exact List.nodup_nil
  | cons first rest =>
    rw [reduceEqualRuns_cons]
    exact mergeRuns_nodup grouped

/-- Payloads are grouped when whatever lies between two copies is a copy. -/
theorem grouped_of_between {blocks : List (OramBlock K V)}
    (between : ∀ a b c, [a, b, c].Sublist blocks → a.isReal = true → c.isReal = true →
      c.payload = a.payload → b.isReal = true ∧ b.payload = a.payload) : Grouped blocks := by
  induction blocks with
  | nil => trivial
  | cons a rest ih =>
    refine ⟨fun ha ⟨c, hc, hcr, hcp⟩ => ?_, ih fun x y z inside => between x y z (inside.cons _)⟩
    obtain ⟨b, rest, rfl⟩ := List.exists_cons_of_ne_nil (List.ne_nil_of_mem hc)
    have copy : b.isReal = true ∧ b.payload = a.payload := by
      rcases List.mem_cons.mp hc with rfl | later
      · exact ⟨hcr, hcp⟩
      · exact between a b c ((List.singleton_sublist.mpr later).cons_cons b |>.cons_cons a) ha hcr hcp
    exact ⟨b, rfl, by simp [joins, ha, copy]⟩

/-- Sorting groups payloads when whatever the order puts between two copies is a copy. -/
theorem grouped_of_sorted {le : OramBlock K V → OramBlock K V → Prop} {blocks : List (OramBlock K V)}
    (sorted : blocks.Pairwise le)
    (between : ∀ a ∈ blocks, ∀ b ∈ blocks, ∀ c ∈ blocks, le a b → le b c → a.isReal = true →
      c.isReal = true → c.payload = a.payload → b.isReal = true ∧ b.payload = a.payload) :
    Grouped blocks := by
  refine grouped_of_between fun a b c inside => ?_
  have order := sorted.sublist inside
  simp only [List.pairwise_cons, List.mem_cons, List.not_mem_nil, or_false, forall_eq_or_imp, forall_eq] at order
  exact between a (inside.subset (.head _)) b (inside.subset (.tail _ (.head _))) c
    (inside.subset (.tail _ (.tail _ (.head _)))) order.1.1 order.2.1

section Split
variable [Add V]

theorem exists_real_mergeRuns {p : Vector UInt8 K} {prev : OramBlock K V} {rest : List (OramBlock K V)}
    {b : OramBlock K V} (hb : b ∈ prev :: rest) (hr : b.isReal = true) (hp : b.payload = p) :
    0 < (reals (mergeRuns prev rest)).countP fun c => c.payload = p := by
  by_contra none
  have zero : mass (⟨fun _ => (), fun _ _ => rfl⟩ : V →ₙ+ Unit) p (mergeRuns prev rest) = 0 :=
    mass_eq_zero.mpr fun c hc hcr hcp => none (List.countP_pos_iff.mpr
      ⟨c, mem_reals.mpr ⟨hc, hcr⟩, decide_eq_true hcp⟩)
  rw [mergeRuns_mass] at zero
  exact mass_eq_zero.mp zero b hb hr hp

/-- A copy after another payload is not merged into the copies before it. -/
theorem two_le_mergeRuns {p : Vector UInt8 K} {prev b c : OramBlock K V} {rest : List (OramBlock K V)}
    (prevReal : prev.isReal = true) (prevPayload : prev.payload = p) (other : b.payload ≠ p)
    (hc : c.isReal = true) (hcp : c.payload = p) (inside : [b, c].Sublist rest) :
    2 ≤ (reals (mergeRuns prev rest)).countP fun d => d.payload = p := by
  induction rest generalizing prev with
  | nil => simp at inside
  | cons cur rest ih =>
    rw [mergeRuns]
    split
    · rename_i together
      simp only [joins, Bool.and_eq_true, decide_eq_true_eq] at together
      rw [reals_cons_dummy rfl]
      refine @ih (absorbRun prev cur) together.1.2 (together.2.trans prevPayload) ?_
      rcases List.sublist_cons_iff.mp inside with later | ⟨tail, same, -⟩
      · exact later
      · exact absurd (together.2.trans prevPayload) ((List.cons.inj same).1 ▸ other)
    · rw [reals_cons_real prevReal, List.countP_cons_of_pos (by simpa using prevPayload)]
      exact Nat.succ_le_succ (exists_real_mergeRuns (inside.subset (.tail _ (.head _))) hc hcp)

theorem two_le_mergeRuns_of_sublist {p : Vector UInt8 K} {prev a b c : OramBlock K V} {rest : List (OramBlock K V)}
    (ha : a.isReal = true) (hap : a.payload = p) (other : b.payload ≠ p) (hc : c.isReal = true)
    (hcp : c.payload = p) (inside : [a, b, c].Sublist rest) :
    2 ≤ (reals (mergeRuns prev rest)).countP fun d => d.payload = p := by
  induction rest generalizing prev with
  | nil => simp at inside
  | cons cur rest ih =>
    have more : ∀ d : OramBlock K V, ∀ bs : List (OramBlock K V), 2 ≤ (reals bs).countP (fun d => d.payload = p) →
        2 ≤ (reals (d :: bs)).countP fun d => d.payload = p := fun d bs two => by
      cases hd : d.isReal with
      | false => rwa [reals_cons_dummy hd]
      | true =>
        rw [reals_cons_real hd, List.countP_cons]
        exact two.trans (Nat.le_add_right _ _)
    rw [mergeRuns]
    rcases List.sublist_cons_iff.mp inside with later | ⟨tail, same, later⟩
    · split
      · exact more _ _ (ih later)
      · exact more _ _ (ih later)
    · obtain ⟨rfl, rfl⟩ := List.cons.inj same
      split
      · rename_i together
        have absorbed : (absorbRun prev a).isReal = true := ha
        exact more _ _ (two_le_mergeRuns absorbed hap other hc hcp later)
      · exact more _ _ (two_le_mergeRuns ha hap other hc hcp later)

theorem two_le_reduceEqualRuns [Inhabited V] {a b c : OramBlock K V} {blocks : List (OramBlock K V)}
    (ha : a.isReal = true) (other : b.payload ≠ a.payload) (hc : c.isReal = true) (same : c.payload = a.payload)
    (inside : [a, b, c].Sublist blocks) :
    2 ≤ (reals (reduceEqualRuns blocks)).countP fun d => d.payload = a.payload := by
  cases blocks with
  | nil => simp at inside
  | cons first rest =>
    rw [reduceEqualRuns_cons]
    rcases List.sublist_cons_iff.mp inside with later | ⟨tail, head, later⟩
    · exact two_le_mergeRuns_of_sublist ha rfl other hc same later
    · obtain ⟨rfl, rfl⟩ := List.cons.inj head
      exact two_le_mergeRuns ha rfl other hc same later

end Split

end Roga
