import Roga.Histogram.ReadoutProofs
import Roga.Histogram.Totals

/-! The exports of a tree agree and are exact. -/
namespace Roga
open Ct Reals ObliviousStash ObliviousHistogram
variable {Z K A S : Nat} {V : Type}

/-- The real records of an export. -/
def entries (blocks : List (OramBlock K V)) : List (Vector UInt8 K × V) :=
  (reals blocks).map fun b => (b.payload, b.value)

section Sums
variable [AddCommSemigroup V]

/-- With one block for each payload the records are the masses. -/
theorem mem_entries {blocks : List (OramBlock K V)} (nodup : ((reals blocks).map OramBlock.payload).Nodup)
    (p : Vector UInt8 K) (v : V) : (p, v) ∈ entries blocks ↔ (mass (AddHom.id V) p blocks).values = (v : WithZero V) := by
  rw [entries, List.mem_map]
  constructor
  · rintro ⟨b, hb, same⟩
    obtain ⟨rfl, rfl⟩ := Prod.mk.inj same
    obtain ⟨hm, hr⟩ := mem_reals.mp hb
    rw [mass_of_nodup nodup hm hr rfl, weight_real hr rfl]
    rfl
  · intro sum
    have held : ∃ b ∈ blocks, b.isReal = true ∧ b.payload = p := by
      by_contra none
      rw [mass_eq_zero.mpr fun b hb hr hp => none ⟨b, hb, hr, hp⟩, map_zero] at sum
      exact WithZero.coe_ne_zero sum.symm
    obtain ⟨b, hm, hr, rfl⟩ := held
    rw [mass_of_nodup nodup hm hr rfl, weight_real hr rfl] at sum
    exact ⟨b, mem_reals.mpr ⟨hm, hr⟩, Prod.ext rfl (WithZero.coe_injective sum)⟩

end Sums

section Export
variable [Add V] [Inhabited V]

omit [Inhabited V] in
/-- The merge loop of the diagnostic export is a run reduction. -/
theorem mergeEntries_eq (tag : UInt64) {b : OramBlock K V} {blocks : List (OramBlock K V)}
    (real : b.isReal = true) (reals' : ∀ c ∈ blocks, c.isReal = true) :
    (mergeEntries tag b.payload b.value blocks).map Prod.snd = entries (mergeRuns b blocks) := by
  induction blocks generalizing tag b with
  | nil =>
    rw [mergeEntries, mergeRuns, entries, reals_cons_real real]
    rfl
  | cons c blocks ih =>
    have hc := reals' c (.head _)
    have later : ∀ d ∈ blocks, d.isReal = true := fun d hd => reals' d (.tail _ hd)
    rw [mergeEntries, mergeRuns]
    by_cases same : c.payload = b.payload
    · have joined : joins b c = true := by simp [joins, real, hc, same]
      rw [if_pos same, if_pos joined, entries, reals_cons_dummy rfl, ← same]
      exact ih (b := absorbRun b c) tag hc later
    · have apart : ¬ joins b c = true := by simp [joins, real, hc, same]
      rw [if_neg same, if_neg apart, entries, reals_cons_real real, List.map_cons, List.map_cons,
        ih c.tag hc later]
      rfl

namespace ObliviousHistogram
variable {h : ObliviousHistogram Z K A S V}

omit [Add V] [Inhabited V] in
theorem reals_stash (shape : h.Shape) : reals h.stash.blocks = h.overflow := by
  conv_lhs => rw [← List.take_append_drop h.stash.pathSize h.stash.blocks]
  rw [reals_append, reals_eq_nil.mpr shape.path_region, List.nil_append]
  rfl

/-- The diagnostic export reduces the contents in payload order. -/
theorem exportEntries_spec (shape : h.Shape) : ∃ sorted : List (OramBlock K V), sorted.Perm h.contents ∧
    Grouped sorted ∧ h.exportEntries.map Prod.snd = entries (reduceEqualRuns sorted) := by
  have collected : h.stash.blocks.filter (fun block => ctIsReal block.tag != 0) ++
      h.physicalMemory.filter (fun block => ctIsReal block.tag != 0) =
      reals h.stash.blocks ++ reals h.physicalMemory := by
    have same : (fun block : OramBlock K V => ctIsReal block.tag != 0) = OramBlock.isReal := by
      funext b
      rw [show ctIsReal b.tag = b.isReal.toUInt8 from OramBlock.ctIsReal_isReal b, toUInt8_bne_zero]
    rw [same]
    rfl
  have perm : (reals h.stash.blocks ++ reals h.physicalMemory).Perm h.contents := by
    rw [reals_stash shape, ← reals_slots shape, reals_append]
    exact List.perm_append_comm
  rw [exportEntries, collected]
  have sortedPerm := List.mergeSort_perm (reals h.stash.blocks ++ reals h.physicalMemory)
    fun a b => decide (bytes a.payload ≤ bytes b.payload)
  have ascending := @List.pairwise_mergeSort _ (fun a b : OramBlock K V => decide (bytes a.payload ≤ bytes b.payload))
    (fun a b c hab hbc => decide_eq_true ((of_decide_eq_true hab).trans (of_decide_eq_true hbc)))
    (fun a b => by
      rcases le_total (bytes a.payload) (bytes b.payload) with le | le <;> simp [le])
    (reals h.stash.blocks ++ reals h.physicalMemory)
  generalize (reals h.stash.blocks ++ reals h.physicalMemory).mergeSort
    (fun a b => decide (bytes a.payload ≤ bytes b.payload)) = sorted at sortedPerm ascending ⊢
  have real : ∀ b ∈ sorted, b.isReal = true := fun b hb => by
    have here := sortedPerm.mem_iff.mp hb
    rw [← reals_append] at here
    exact (mem_reals.mp here).2
  refine ⟨sorted, sortedPerm.trans perm, ?_, ?_⟩
  · refine grouped_of_key (ascending.imp_of_mem fun {a b} ha hb le => ?_)
      payloadKey_faithful fun a ha c hc pay => ?_
    · rw [payloadKey, payloadKey, if_pos (real a ha), if_pos (real b hb)]
      exact WithTop.coe_le_coe.mpr (of_decide_eq_true le)
    · rw [payloadKey, payloadKey, if_pos (mem_reals.mp ha).2, if_pos (mem_reals.mp hc).2, pay]
  · cases sorted with
    | nil => rfl
    | cons b blocks =>
      rw [reduceEqualRuns_cons]
      exact mergeEntries_eq b.tag (real b (.head _)) fun c hc => real c (.tail _ hc)

end ObliviousHistogram
end Export

/-- Blocks of separated keys with equal payloads are blocks of one key. -/
theorem ObliviousHistogram.Inv.tagsAgree {prf : Aes128} {keys : List UInt8 → Prop} {h : ObliviousHistogram Z K A S V}
    (inv : h.Inv (keyed prf keys)) (sep : Separated prf K keys) : TagsAgree h.contents := by
  intro a ha b hb same
  obtain ⟨k, hk, ka⟩ := inv.inserted a ha
  obtain ⟨k', hk', kb⟩ := inv.inserted b hb
  have pay : copyPrefix K k = copyPrefix K k' :=
    (congrArg Prod.snd ka).symm.trans (same.trans (congrArg Prod.snd kb))
  rw [sep.prefix_inj k k' hk hk' pay] at ka
  exact congrArg Prod.fst (ka.trans kb.symm)

section Exact
variable [AddCommSemigroup V] [Inhabited V]

/-- The sum of all real blocks of a payload in the tree and the overflow region. -/
def storedSum (h : ObliviousHistogram Z K A S V) (p : Vector UInt8 K) : WithZero V :=
  sumOf ((h.contents.filter fun b => b.payload = p).map OramBlock.value)

/-- Each stored payload once, with its sum, and nothing else. -/
def ExactFor (h : ObliviousHistogram Z K A S V) (pairs : List (Vector UInt8 K × V)) : Prop :=
  (pairs.map Prod.fst).Nodup ∧ ∀ p v, (p, v) ∈ pairs ↔ storedSum h p = (v : WithZero V)

variable {h : ObliviousHistogram Z K A S V}

omit [Inhabited V] in
theorem exactFor_of_mass {out : List (OramBlock K V)} (nodup : ((reals out).map OramBlock.payload).Nodup)
    (conserved : ∀ p, mass (AddHom.id V) p out = mass (AddHom.id V) p h.contents) (shape : h.Shape) :
    ExactFor h (entries out) := by
  refine ⟨?_, fun p v => ?_⟩
  · rw [entries, List.map_map]
    exact nodup
  · have contents : reals h.contents = h.contents := by
      rw [← ObliviousHistogram.reals_slots shape, reals_eq_self fun b hb => (mem_reals.mp hb).2]
    rw [mem_entries nodup, conserved, values_mass, contents, storedSum]

omit [Inhabited V] in
theorem exactFor_of_exported {out : List (OramBlock K V)} (shape : h.Shape)
    (exported : Exported (h.physicalMemory ++ h.stash.overflowSlots) out) : ExactFor h (entries out) :=
  exactFor_of_mass exported.nodup (fun p => by
    rw [exported.mass, ← mass_reals, ObliviousHistogram.reals_slots shape]) shape

/-- All exports hold the same records, each payload once with its sum. -/
theorem exports_exact {z : Nat} (hz : Z = 2 ^ z) (shape : h.Shape) (onPath : h.OnPath)
    (tags : TagsAgree h.contents) :
    ExactFor h (entries h.readout) ∧ ExactFor h (entries h.readoutTreeAware) ∧
      ExactFor h (entries h.intoReadoutTreeAware) ∧ ExactFor h (h.exportEntries.map Prod.snd) ∧
      h.readout.length = 2 ^ (h.height + 1) * Z + S ∧
      h.readoutTreeAware.length = 2 ^ (h.height + 1) * Z + S ∧
      h.intoReadoutTreeAware.length = 2 ^ (h.height + 1) * Z + S ∧
      ∃ front rest, h.readout = front ++ rest ∧ (∀ b ∈ front, b.isReal = true) ∧
        (∀ b ∈ rest, b.isReal = false) ∧ front.Pairwise fun a b => bytes a.payload < bytes b.payload := by
  obtain ⟨slots, overflowLen⟩ := ObliviousHistogram.slots_length shape
  obtain ⟨global, ascending⟩ := obliviousReadout_spec (h.physicalMemory ++ h.stash.overflowSlots)
  have tree : Exported (h.physicalMemory ++ h.stash.overflowSlots) h.readoutTreeAware := by
    rw [ObliviousHistogram.readoutTreeAware, overflowLen]
    subst hz
    refine obliviousTreeReadout_spec slots (fun b hb => ?_) (onPath.levelled shape _) ?_
    · have zero : 0 < 2 ^ (h.height + 1) := Nat.two_pow_pos _
      rw [bucketAt_append (shape.memory ▸ bucket_fits zero)] at hb
      exact shape.bucket_zero b hb
    · rw [ObliviousHistogram.reals_slots shape]
      exact tags
  obtain ⟨sorted, perm, grouped, same⟩ := ObliviousHistogram.exportEntries_spec shape
  refine ⟨exactFor_of_exported shape global, exactFor_of_exported shape tree, exactFor_of_exported shape tree, ?_,
    global.length.trans slots, tree.length.trans slots, tree.length.trans slots, ascending⟩
  rw [same]
  exact exactFor_of_mass (reduceEqualRuns_nodup grouped) (fun p => by
    rw [reduceEqualRuns_mass, mass_perm p perm]) shape

theorem exports_exact_two_keys : ∃ (outs : List (Option Nat)) (h : ObliviousHistogram 1 1 1 2 Nat),
    runNew .constant 2 id [.append [1] 5, .append [2] 7, .append [1] 6] = .ok (outs, h) ∧
      ExactFor h (entries h.readout) := by
  have run : (runNew .constant 2 id [.append [1] 5, .append [2] 7, .append [1] 6] :
    Except Panic (List (Option Nat) × ObliviousHistogram 1 1 1 2 Nat)).toBool = true := by decide +kernel
  obtain ⟨⟨outs, h⟩, run⟩ := exists_of_toBool run
  obtain ⟨h₀, start, steps⟩ := bind_ok run
  obtain ⟨-, appended, holds⟩ := (Holds.new start).run separated_pair (by simp [TreeOp.Over]) steps
  exact ⟨outs, h, run, (exports_exact (z := 0) rfl holds.inv.shape holds.inv.onPath
    (holds.inv.tagsAgree separated_pair)).1⟩

end Exact
end Roga
