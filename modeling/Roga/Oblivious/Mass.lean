import Mathlib.Algebra.BigOperators.Group.List.Basic
import Mathlib.Algebra.Group.WithOne.Basic
import Mathlib.Algebra.Tropical.Basic
import Roga.Oblivious.Block

/-! The mass of a payload in a slice: the sum of its values, seen through an
additive map, together with the least of its epochs, or zero when no real block
carries it. -/
namespace Roga
open Reals
variable {K : Nat} {V M : Type} [Add V] [AddCommSemigroup M] {f : V →ₙ+ M}

/-- Values add, epochs take the minimum, and zero stands for no block. -/
abbrev Mass (M : Type) := WithZero (M × Tropical Nat)

def weight (f : V →ₙ+ M) (p : Vector UInt8 K) (b : OramBlock K V) : Mass M :=
  if b.isReal = true ∧ b.payload = p then some (f b.value, Tropical.trop b.epoch.toNat) else 0

theorem weight_real {p : Vector UInt8 K} {b : OramBlock K V} (hr : b.isReal = true)
    (hp : b.payload = p) :
    weight f p b = ((f b.value, Tropical.trop b.epoch.toNat) : M × Tropical Nat) := if_pos ⟨hr, hp⟩

theorem weight_dummy {p : Vector UInt8 K} {b : OramBlock K V} (h : b.tag = 0) : weight f p b = 0 :=
  if_neg fun hr => OramBlock.isReal_iff.mp hr.1 h

theorem weight_other {p : Vector UInt8 K} {b : OramBlock K V} (h : b.payload ≠ p) :
    weight f p b = 0 := if_neg fun hr => h hr.2

def mass (f : V →ₙ+ M) (p : Vector UInt8 K) (blocks : List (OramBlock K V)) : Mass M :=
  (blocks.map (weight f p)).sum

@[simp] theorem mass_nil (p : Vector UInt8 K) : mass f p ([] : List (OramBlock K V)) = 0 := rfl

theorem mass_cons (p : Vector UInt8 K) (b : OramBlock K V) (bs : List (OramBlock K V)) :
    mass f p (b :: bs) = weight f p b + mass f p bs := List.sum_cons

@[simp] theorem mass_append (p : Vector UInt8 K) (xs ys : List (OramBlock K V)) :
    mass f p (xs ++ ys) = mass f p xs + mass f p ys := by
  rw [mass, List.map_append, List.sum_append]
  rfl

theorem mass_perm (p : Vector UInt8 K) {xs ys : List (OramBlock K V)} (h : xs.Perm ys) :
    mass f p xs = mass f p ys := (h.map _).sum_eq

theorem mass_reals (p : Vector UInt8 K) (bs : List (OramBlock K V)) : mass f p (reals bs) = mass f p bs := by
  induction bs with
  | nil => rfl
  | cons b bs ih =>
    cases h : b.isReal with
    | true => rw [reals_cons_real h, mass_cons, mass_cons, ih]
    | false =>
      rw [reals_cons_dummy h, mass_cons, weight_dummy (OramBlock.isReal_eq_false.mp h), zero_add, ih]

theorem mass_flatMap (p : Vector UInt8 K) {ι : Type} (is : List ι) (g : ι → List (OramBlock K V)) :
    mass f p (is.flatMap g) = (is.map fun i => mass f p (g i)).sum := by
  induction is with
  | nil => rfl
  | cons i is ih => rw [List.flatMap_cons, mass_append, ih, List.map_cons, List.sum_cons]

theorem add_eq_zero_mass {a b : Mass M} : a + b = 0 ↔ a = 0 ∧ b = 0 := by
  cases a using WithZero.recZeroCoe with
  | zero => simp
  | coe a =>
    cases b using WithZero.recZeroCoe with
    | zero => simp
    | coe b => simp [← WithZero.coe_add]

theorem mass_eq_zero {p : Vector UInt8 K} {bs : List (OramBlock K V)} :
    mass f p bs = 0 ↔ ∀ b ∈ bs, b.isReal = true → b.payload ≠ p := by
  induction bs with
  | nil => simp
  | cons b bs ih =>
    rw [mass_cons, add_eq_zero_mass, ih, List.forall_mem_cons]
    refine and_congr_left fun _ => ⟨fun h hr hp => ?_, fun h => if_neg fun hb => h hb.1 hb.2⟩
    rw [weight_real hr hp] at h
    exact WithZero.coe_ne_zero h

theorem mass_of_dummies (p : Vector UInt8 K) {bs : List (OramBlock K V)}
    (h : ∀ b ∈ bs, b.isReal = false) : mass f p bs = 0 :=
  mass_eq_zero.mpr fun b hb hr => absurd hr (by simp [h b hb])

/-- The sum of the values alone. -/
def Mass.values : Mass M →+ WithZero M := WithZero.mapAddHom (AddHom.fst M (Tropical Nat))

/-- The value a read returns for a sum of values. -/
def readValue {V : Type} [Inhabited V] (m : WithZero V) : V := Option.getD m default

/-- A slice whose real blocks have distinct payloads holds each mass in one block. -/
theorem mass_of_nodup {p : Vector UInt8 K} {bs : List (OramBlock K V)}
    (nodup : ((reals bs).map OramBlock.payload).Nodup) {b : OramBlock K V} (hb : b ∈ bs)
    (hr : b.isReal = true) (hp : b.payload = p) : mass f p bs = weight f p b := by
  induction bs with
  | nil => simp at hb
  | cons c cs ih =>
    rw [mass_cons]
    cases hc : c.isReal with
    | false =>
      rw [weight_dummy (OramBlock.isReal_eq_false.mp hc), zero_add]
      rw [reals_cons_dummy hc] at nodup
      rcases List.mem_cons.mp hb with rfl | hb
      · exact absurd hr (by simp [hc])
      · exact ih nodup hb
    | true =>
      rw [reals_cons_real hc, List.map_cons, List.nodup_cons] at nodup
      rcases List.mem_cons.mp hb with rfl | hb
      · rw [mass_eq_zero.mpr, add_zero]
        intro d hd hdr hdp
        exact nodup.1 (List.mem_map.mpr ⟨d, mem_reals.mpr ⟨hd, hdr⟩, hdp.trans hp.symm⟩)
      · rw [ih nodup.2 hb, weight_other, zero_add]
        intro hcp
        exact nodup.1 (List.mem_map.mpr ⟨b, mem_reals.mpr ⟨hb, hr⟩, hp.trans hcp.symm⟩)

end Roga
