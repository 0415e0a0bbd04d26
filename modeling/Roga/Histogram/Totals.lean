import Roga.Histogram.RunProofs

/-! A tree refines the map of running totals. -/
namespace Roga
open Ct Reals ObliviousStash ObliviousHistogram
variable {Z K A S : Nat} {V : Type} {math : ResizeMath} [AddCommSemigroup V] [Inhabited V]

section Sums

omit [Inhabited V] in
/-- The values of a list, summed where the empty sum is no value at all. -/
def sumOf (vs : List V) : WithZero V := (vs.map ((↑) : V → WithZero V)).sum

omit [Inhabited V] in
@[simp] theorem sumOf_nil : sumOf ([] : List V) = 0 := rfl

omit [Inhabited V] in
@[simp] theorem sumOf_append (vs ws : List V) : sumOf (vs ++ ws) = sumOf vs + sumOf ws := by
  simp [sumOf]

omit [Inhabited V] in
@[simp] theorem sumOf_singleton (v : V) : sumOf [v] = (v : WithZero V) := by
  simp [sumOf]

omit [Inhabited V] in
theorem sumOf_cons (v : V) (vs : List V) : sumOf (v :: vs) = ((vs.foldl (· + ·) v : V) : WithZero V) := by
  induction vs generalizing v with
  | nil => simp [sumOf]
  | cons w ws ih =>
    rw [List.foldl_cons, ← ih, sumOf, sumOf]
    simp [add_assoc]

theorem readValue_sumOf (vs : List V) : readValue (sumOf vs) = total vs := by
  cases vs with
  | nil => rfl
  | cons v vs =>
    rw [sumOf_cons]
    rfl

omit [Inhabited V] in
theorem values_mass (p : Vector UInt8 K) (blocks : List (OramBlock K V)) :
    (mass (AddHom.id V) p blocks).values =
      sumOf (((reals blocks).filter fun b => b.payload = p).map OramBlock.value) := by
  induction blocks with
  | nil => rfl
  | cons b blocks ih =>
    rw [mass_cons, map_add, ih]
    cases hr : b.isReal with
    | false => rw [weight_dummy (OramBlock.isReal_eq_false.mp hr), map_zero, zero_add, reals_cons_dummy hr]
    | true =>
      rw [reals_cons_real hr]
      by_cases hp : b.payload = p
      · rw [weight_real hr hp, List.filter_cons_of_pos (by simpa using hp), List.map_cons, sumOf, sumOf,
          List.map_cons, List.sum_cons]
        rfl
      · rw [weight_other hp, map_zero, zero_add, List.filter_cons_of_neg (by simpa using hp)]

end Sums

section Keys
variable {keys : List UInt8 → Prop} {prf : Aes128}

/-- The tags and payloads of a set of keys. -/
def keyed (prf : Aes128) (keys : List UInt8 → Prop) (id : UInt64 × Vector UInt8 K) : Prop :=
  ∃ k, keys k ∧ id = (prfTag prf k, copyPrefix K k)

theorem Separated.identified (sep : Separated prf K keys) : Identified (keyed (K := K) prf keys) := by
  rintro - - ⟨k, hk, rfl⟩ ⟨k', hk', rfl⟩
  constructor
  · intro same
    rw [sep.prefix_inj k k' hk hk' same]
  · intro same
    rw [sep.tag_inj k k' hk hk' same]

theorem Separated.covers (sep : Separated prf K keys) {key : List UInt8} (hkey : keys key) {tag : UInt64}
    (known : keyed prf keys (tag, copyPrefix K key)) : tag = prfTag prf key := by
  obtain ⟨k, hk, same⟩ := known
  rw [sep.prefix_inj key k hkey hk (congrArg Prod.snd same)]
  exact congrArg Prod.fst same

end Keys

namespace ObliviousHistogram
variable {h h' m : ObliviousHistogram Z K A S V} {keys : List UInt8 → Prop} {prf : Aes128}

/-- A tree holds the values appended under each key. -/
structure Holds (prf : Aes128) (keys : List UInt8 → Prop) (appended : List UInt8 → List V)
    (h : ObliviousHistogram Z K A S V) : Prop where
  inv : h.Inv (keyed prf keys)
  prf_eq : h.prf = prf
  values : ∀ k, keys k → (mass (AddHom.id V) (copyPrefix K k) h.contents).values = sumOf (appended k)

omit [Inhabited V] in
theorem mass_block (p : Vector UInt8 K) {tag : UInt64} (real : tag ≠ 0) (epoch : UInt8) (value : V)
    (payload : Vector UInt8 K) :
    (mass (AddHom.id V) p (reals [{ tag, epoch, value, payload }])).values = if payload = p then (value : WithZero V) else 0 := by
  rw [mass_reals, mass_cons, mass_nil, add_zero]
  by_cases same : payload = p
  · rw [if_pos same, weight_real (OramBlock.isReal_iff.mpr real) same]
    rfl
  · rw [if_neg same, weight_other same, map_zero]

theorem Holds.reshuffle {appended : List UInt8 → List V} (holds : Holds prf keys appended h)
    (moves : Reshuffle h h') : Holds prf keys appended h' :=
  ⟨moves.inv holds.inv, moves.prf.trans holds.prf_eq, fun k hk => by
    rw [moves.mass_eq holds.inv, holds.values k hk]⟩

theorem Holds.append {appended : List UInt8 → List V} (sep : Separated prf K keys)
    (holds : Holds prf keys appended h) {key : List UInt8} (hkey : keys key) {val : V}
    (run : h.append math key val = .ok h') :
    Holds prf keys (Function.update appended key (appended key ++ [val])) h' := by
  have real : prfTag h.prf key ≠ 0 := holds.prf_eq ▸ sep.tag_ne_zero key hkey
  obtain ⟨m, minv, mprf, -, contents, moves⟩ := addPreparedInner_step holds.inv
    (fun _ => ⟨key, hkey, by rw [holds.prf_eq]⟩) run
  refine Holds.reshuffle ⟨minv, mprf.trans holds.prf_eq, fun k hk => ?_⟩ moves
  rw [mass_perm _ contents, mass_append, map_add, mass_block _ real, holds.values k hk]
  by_cases same : k = key
  · subst same
    rw [if_pos rfl, Function.update_self, sumOf_append, sumOf_singleton, add_comm]
  · rw [if_neg fun h => same (sep.prefix_inj k key hk hkey h.symm), zero_add,
      Function.update_of_ne same]

theorem Holds.readTotal {appended : List UInt8 → List V} (sep : Separated prf K keys)
    (holds : Holds prf keys appended h) {key : List UInt8} (hkey : keys key) {v : V}
    (run : h.readTotal key = .ok (v, h')) :
    v = total (appended key) ∧ Holds prf keys (Function.update appended key []) h' := by
  have covers : ∀ t, keyed prf keys (t, copyPrefix K key) →
      toLeaf t h.height = toLeaf (prfTag h.prf key) h.height := fun t known => by
    rw [sep.covers hkey known, holds.prf_eq]
  have none := mass_rest (f := AddHom.id V) holds.inv covers
  have value := readPreparedTotal_value holds.inv sep.identified none run
  have masses := readPreparedTotal_mass holds.inv none run
  obtain ⟨inv', prf', -⟩ := readPreparedTotal_step holds.inv run
  refine ⟨?_, inv', prf'.trans holds.prf_eq, fun k hk => ?_⟩
  · rw [value, holds.values key hkey, readValue_sumOf]
  · rw [masses]
    by_cases same : k = key
    · rw [same, if_pos rfl, Function.update_self, map_zero, sumOf_nil]
    · rw [if_neg fun h => same (sep.prefix_inj k key hk hkey h), Function.update_of_ne same,
        holds.values k hk]

/-- One operation returns what the map returns and moves to the next map. -/
theorem Holds.step {appended : List UInt8 → List V} (sep : Separated prf K keys)
    (holds : Holds prf keys appended h) {op : TreeOp K V} (over' : op.Over keys) {out : Option V}
    (run : h.step math op = .ok (out, h')) :
    out = (op.onTotals appended).1 ∧ Holds prf keys (op.onTotals appended).2 h' := by
  cases op with
  | append key val =>
    obtain ⟨g, hg, same⟩ := map_ok run
    obtain ⟨rfl, rfl⟩ := Prod.mk.inj same
    exact ⟨rfl, holds.append sep over' hg⟩
  | readTotal key =>
    obtain ⟨⟨v, g⟩, hg, run⟩ := bind_ok run
    simp only [pure, Except.pure, Except.ok.injEq, Prod.mk.injEq] at run
    obtain ⟨rfl, rfl⟩ := run
    obtain ⟨value, holds'⟩ := holds.readTotal sep over' hg
    exact ⟨congrArg some value, holds'⟩
  | appendBatch updates => exact over'.elim
  | _ =>
    obtain ⟨moves, rfl⟩ := step_reshuffle run (fun _ _ => by simp) (fun _ => by simp) fun _ => by simp
    exact ⟨rfl, holds.reshuffle moves⟩

theorem Holds.run {appended : List UInt8 → List V} (sep : Separated prf K keys)
    (holds : Holds prf keys appended h) {ops : List (TreeOp K V)} (over' : ∀ op ∈ ops, op.Over keys)
    {outs : List (Option V)} (run : h.run math ops = .ok (outs, h')) :
    outs = totalsRun appended ops ∧ ∃ appended', Holds prf keys appended' h' := by
  induction ops generalizing h outs appended with
  | nil =>
    simp only [ObliviousHistogram.run, Except.ok.injEq, Prod.mk.injEq] at run
    obtain ⟨rfl, rfl⟩ := run
    exact ⟨rfl, appended, holds⟩
  | cons op ops ih =>
    obtain ⟨out, outs', g, hstep, htail, rfl⟩ := run_cons run
    obtain ⟨value, holds'⟩ := holds.step sep (over' op (.head _)) hstep
    obtain ⟨values, final⟩ := ih holds' (fun op hop => over' op (.tail _ hop)) htail
    refine ⟨?_, final⟩
    rw [totalsRun, ← value, ← values]

theorem Holds.new {cap : Nat} (start : new cap prf = .ok h) : Holds prf keys (fun _ => []) h := by
  obtain ⟨inv, contents, hprf, -⟩ := new_spec start
  refine ⟨inv, hprf, fun k _ => ?_⟩
  rw [contents, mass_nil, map_zero, sumOf_nil]

end ObliviousHistogram

/-- Every read returns the values appended under its key since the last read of
it, and nothing else changes what a later read returns. -/
theorem tree_refines_totals {cap : Nat} {prf : Aes128} {keys : List UInt8 → Prop}
    (sep : Separated prf K keys) {ops : List (TreeOp K V)} (over' : ∀ op ∈ ops, op.Over keys)
    {outs : List (Option V)} {h : ObliviousHistogram Z K A S V}
    (run : runNew math cap prf ops = .ok (outs, h)) : outs = totalsRun (fun _ => []) ops := by
  obtain ⟨h₀, start, run⟩ := bind_ok run
  exact ((Holds.new start).run sep over' run).1

theorem separated_pair : Separated id 1 fun k => k = [1] ∨ k = [2] := by
  refine ⟨?_, ?_, ?_⟩
  · rintro k k' (rfl | rfl) (rfl | rfl) <;> decide +kernel
  · rintro k (rfl | rfl) <;> decide +kernel
  · rintro k k' (rfl | rfl) (rfl | rfl) <;> decide +kernel

theorem tree_refines_totals_two_keys :
    let ops := [TreeOp.append [1] 5, .append [2] 7, .append [1] 6, .grow, .readTotal [1], .readTotal [2]]
    ∃ (outs : List (Option Nat)) (h : ObliviousHistogram 1 1 1 3 Nat),
      runNew .constant 2 id ops = .ok (outs, h) ∧ outs = totalsRun (fun _ => []) ops := by
  intro ops
  have run : (runNew .constant 2 id ops :
    Except Panic (List (Option Nat) × ObliviousHistogram 1 1 1 3 Nat)).toBool = true := by decide +kernel
  obtain ⟨⟨outs, h⟩, run⟩ := exists_of_toBool run
  exact ⟨outs, h, run, tree_refines_totals separated_pair (by simp [ops, TreeOp.Over]) run⟩

end Roga
