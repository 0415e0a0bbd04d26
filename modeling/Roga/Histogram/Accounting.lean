import Roga.Histogram.Control
import Roga.Histogram.Schedule
import Roga.Histogram.Totals
import Mathlib.Algebra.Order.PUnit

/-! The resize statistic counts payloads, whatever slots their copies lie in. -/
namespace Roga
open Ct Reals ObliviousStash
variable {Z K A S : Nat} {V : Type} {math : ResizeMath}

theorem countMatchingBlocks_eq (stash : ObliviousStash Z K S V) (height : Nat) (leaf : TreeIndex)
    (epoch : UInt8) : stash.countMatchingBlocks height leaf epoch =
      ((reals stash.blocks).filter fun b => toLeaf b.tag height = leaf ∧ b.epoch = epoch).length := by
  have scan : ∀ (blocks : List (OramBlock K V)) (result : Nat), blocks.foldl (fun result block =>
      let isReal := ctIsReal block.tag
      let leafMatch := ctEq (toLeaf block.tag height) leaf
      let epochMatch := ctEq block.epoch epoch
      let isMatch := isReal &&& leafMatch &&& epochMatch
      result + isMatch.toNat) result = result +
        ((reals blocks).filter fun b => toLeaf b.tag height = leaf ∧ b.epoch = epoch).length := by
    intro blocks
    induction blocks with
    | nil => exact fun result => rfl
    | cons b blocks ih =>
      intro result
      have real : ctIsReal b.tag = b.isReal.toUInt8 := OramBlock.ctIsReal_isReal b
      rw [List.foldl_cons, ih]
      simp only [real, ctEq]
      cases hb : b.isReal with
      | false => simp [reals_cons_dummy hb]
      | true =>
        rw [reals_cons_real hb, List.filter_cons]
        by_cases leafMatch : toLeaf b.tag height = leaf <;> by_cases epochMatch : b.epoch = epoch <;>
          simp [leafMatch, epochMatch, Nat.add_assoc, Nat.add_comm]
  rw [countMatchingBlocks, scan, Nat.zero_add]

/-- The least epoch of a mass. -/
def Mass.epoch {M : Type} (m : Mass M) : Option Nat := Option.map (fun x => Tropical.untrop x.2) m

/-- Epochs without the values. -/
def forget (V : Type) [Add V] : V →ₙ+ Unit := ⟨fun _ => (), fun _ _ => rfl⟩

/-- Each payload is known with one tag. -/
def OneTag (known : UInt64 × Vector UInt8 K → Prop) : Prop :=
  ∀ t t' p, known (t, p) → known (t', p) → t = t'

theorem Separated.oneTag {prf : Aes128} {keys : List UInt8 → Prop} (sep : Separated prf K keys) :
    OneTag (keyed (K := K) prf keys) := by
  rintro t t' p ⟨k, hk, same⟩ known
  obtain ⟨rfl, rfl⟩ := Prod.mk.inj same
  exact (sep.covers hk known).symm

namespace ObliviousHistogram
variable {h h' : ObliviousHistogram Z K A S V} {known : UInt64 × Vector UInt8 K → Prop}
  [Add V] [Inhabited V]

/-- The payload's leaf is the one an eviction visits, and its oldest copy is of the current epoch. -/
def Counted (known : UInt64 × Vector UInt8 K → Prop) (h : ObliviousHistogram Z K A S V)
    (p : Vector UInt8 K) : Prop :=
  (∃ t, known (t, p) ∧ toLeaf t h.height = evictLeafAt h.height h.evictCtr) ∧
    (mass (forget V) p h.contents).epoch = some h.epoch.toNat

theorem evictCount_spec (inv : h.Inv known) (identified : Identified known) (oneTag : OneTag known) :
    ∃ payloads : List (Vector UInt8 K), payloads.Nodup ∧ payloads.length = h.evictCount ∧
      ∀ p, p ∈ payloads ↔ Counted known h p := by
  obtain ⟨low, high⟩ := evictLeafAt_bounds inv.shape.height_le h.evictCtr
  generalize hleaf : evictLeafAt h.height h.evictCtr = leaf at low high
  have nodup := mergedStash_nodup low high inv identified
  obtain ⟨-, -, ids, -⟩ := mergedStash_spec low high inv.shape
  have knows : ∀ b ∈ reals (h.mergedStash leaf).blocks, known (b.tag, b.payload) := fun b hb => by
    obtain ⟨a, ha, same⟩ := ids b hb
    have here := inv.inserted a ((contents_perm low high rfl).mem_iff.mpr (List.mem_append_right _ ha))
    rwa [same] at here
  have merged : ∀ p, (∃ t, known (t, p) ∧ toLeaf t h.height = leaf) →
      mass (forget V) p h.contents = mass (forget V) p (h.mergedStash leaf).blocks := by
    rintro p ⟨t, ht, here⟩
    rw [mass_perm p (contents_perm low high rfl), mass_append, mergedStash_mass low high inv.shape,
      mass_rest inv fun t' ht' => oneTag t t' p ht ht' ▸ here, zero_add]
  refine ⟨((reals (h.mergedStash leaf).blocks).filter
    fun b => toLeaf b.tag h.height = leaf ∧ b.epoch = h.epoch).map OramBlock.payload,
    nodup.sublist (List.filter_sublist.map _), ?_, fun p => ?_⟩
  · rw [List.length_map, evictCount, hleaf, countMatchingBlocks_eq]
  rw [Counted, hleaf]
  constructor
  · intro hp
    obtain ⟨b, hb, rfl⟩ := List.mem_map.mp hp
    obtain ⟨hb, matches'⟩ := List.mem_filter.mp hb
    simp only [decide_eq_true_eq] at matches'
    have place : ∃ t, known (t, b.payload) ∧ toLeaf t h.height = leaf := ⟨b.tag, knows b hb, matches'.1⟩
    obtain ⟨hm, hr⟩ := mem_reals.mp hb
    refine ⟨place, ?_⟩
    rw [merged _ place, mass_of_nodup nodup hm hr rfl, weight_real hr rfl, ← matches'.2]
    rfl
  · rintro ⟨place, epoch⟩
    rw [merged _ place] at epoch
    have held : ∃ b ∈ (h.mergedStash leaf).blocks, b.isReal = true ∧ b.payload = p := by
      by_contra none
      rw [mass_eq_zero.mpr fun b hb hr hp => none ⟨b, hb, hr, hp⟩] at epoch
      exact Option.some_ne_none _ epoch.symm
    obtain ⟨b, hm, hr, rfl⟩ := held
    have hb := mem_reals.mpr ⟨hm, hr⟩
    rw [mass_of_nodup nodup hm hr rfl, weight_real hr rfl] at epoch
    have same : b.epoch.toNat = h.epoch.toNat := Option.some.inj epoch
    obtain ⟨t, ht, here⟩ := place
    refine List.mem_map.mpr ⟨b, List.mem_filter.mpr ⟨hb, ?_⟩, rfl⟩
    rw [decide_eq_true_eq, ← oneTag _ _ _ ht (knows b hb)]
    exact ⟨here, UInt8.toNat_inj.mp same⟩

end ObliviousHistogram
end Roga
