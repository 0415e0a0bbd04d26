import Roga.Histogram.ReadoutProofs
import Roga.Oblivious.Sorting

/-! The comparators of the readouts decide the strict parts of total preorders, and
their ties are the payloads that the run reduction takes for equal. -/
namespace Roga
open Ct Djbsort
variable {K : Nat} {V κ : Type}

/-- All dummies after all reals, and the reals by their position. -/
def DummiesLast [LE κ] (position : OramBlock K V → κ) (a b : OramBlock K V) : Prop :=
  b.tag = 0 ∨ (a.tag ≠ 0 ∧ b.tag ≠ 0 ∧ position a ≤ position b)

/-- Routing bits, then the high half of the tag, then the payload. -/
def treePosition (b : OramBlock K V) : Nat ×ₗ Nat ×ₗ List Nat :=
  toLex ((routingBits b.tag).toNat, toLex ((b.tag >>> 32).toNat, bytes b.payload))

section Preorder
variable [LinearOrder κ] {position : OramBlock K V → κ} {greater : OramBlock K V → OramBlock K V → UInt8}

/-- The dummies are the blocks with no position. -/
theorem dummiesLast_iff (a b : OramBlock K V) : DummiesLast position a b ↔
    (if a.isReal then (position a : WithTop κ) else ⊤) ≤ if b.isReal then (position b : WithTop κ) else ⊤ := by
  rw [DummiesLast, ← OramBlock.isReal_eq_false, ← OramBlock.isReal_iff, ← OramBlock.isReal_iff]
  cases b.isReal with
  | false => simp
  | true => cases a.isReal <;> simp

theorem strictPart_of_key (spec : ∀ a b, gt greater a b = true ↔
    (if b.isReal then (position b : WithTop κ) else ⊤) < if a.isReal then (position a : WithTop κ) else ⊤) :
    StrictPart greater (DummiesLast position) where
  total := by
    intro a b
    rw [dummiesLast_iff, dummiesLast_iff]
    exact le_total _ _
  trans := by
    intro a b c left right
    rw [dummiesLast_iff] at left right ⊢
    exact left.trans right
  strict := by
    intro a b
    rw [dummiesLast_iff, not_le, ← spec, gt, bne_iff_ne]

end Preorder

section Positions

/-- One word holds the routing bits and the high half, in this order. -/
theorem treePlace_le_iff (a b : OramBlock K V) : treePlace a ≤ treePlace b ↔ treePosition a ≤ treePosition b := by
  have high : ∀ tag : UInt64, (tag >>> 32).toNat = tag.toNat / 2 ^ 32 := fun tag => by
    rw [UInt64.toNat_shiftRight, Nat.shiftRight_eq_div_pow]
    rfl
  have left := a.tag.toNat_lt
  have right := b.tag.toNat_lt
  rw [treePlace, treePlace, treePosition, treePosition, Prod.Lex.toLex_le_toLex, Prod.Lex.toLex_le_toLex,
    Prod.Lex.toLex_le_toLex, treeOrder_toNat, treeOrder_toNat, high, high]
  by_cases le : bytes a.payload ≤ bytes b.payload
  · simp only [le, and_true]
    omega
  · simp only [le, and_false, or_false]
    omega

theorem treeReadoutGt_part : StrictPart (treeReadoutGt (K := K) (V := V)) (DummiesLast treePosition) := by
  have same : DummiesLast (K := K) (V := V) treePosition = DummiesLast treePlace := by
    funext a b
    rw [DummiesLast, DummiesLast, treePlace_le_iff]
  rw [same]
  exact strictPart_of_key treeReadoutGt_spec

theorem payloadGt_part :
    StrictPart (payloadGt (K := K) (V := V)) (DummiesLast fun b => bytes b.payload) :=
  strictPart_of_key payloadGt_spec

/-- Payloads that neither order puts first are equal. -/
theorem bytes_tie_iff (p q : Vector UInt8 K) : bytes p ≤ bytes q ∧ bytes q ≤ bytes p ↔ p = q := by
  rw [← le_antisymm_iff]
  constructor
  · exact bytes_inj
  · rintro rfl
    rfl

end Positions

/-- `payload_gt` and `tree_readout_gt` are the strict parts of the two orders, and the
ties of real blocks are the payloads that `ct_eq_bytes` takes for equal. -/
theorem comparators_are_strict_parts :
    StrictPart (payloadGt (K := K) (V := V)) (DummiesLast fun b => bytes b.payload) ∧
    StrictPart (treeReadoutGt (K := K) (V := V)) (DummiesLast treePosition) ∧
    ∀ a b : OramBlock K V, a.tag ≠ 0 → b.tag ≠ 0 →
      (payloadGt a b = 0 ∧ payloadGt b a = 0 ↔ ctEqBytes a.payload b.payload = 1) := by
  refine ⟨payloadGt_part, treeReadoutGt_part, ?_⟩
  intro a b ha hb
  have zero : ∀ a b : OramBlock K V, payloadGt a b = 0 ↔ DummiesLast (fun b => bytes b.payload) a b :=
    fun a b => not_iff_not.mp (payloadGt_part.strict a b)
  rw [zero, zero, ctEqBytes_spec, toUInt8_eq_one, decide_eq_true_iff, ← bytes_tie_iff]
  simp only [DummiesLast, ha, hb, false_or, ne_eq, not_false_eq_true, true_and]

theorem comparators_are_strict_parts_tie :
    payloadGt (OramBlock.real (K := 1) 5 0 (0 : Nat) (.replicate 1 7)) (.real 9 0 0 (.replicate 1 7)) = 0 := by
  have tie := (comparators_are_strict_parts (K := 1) (V := Nat)).2.2 (.real 5 0 0 (.replicate 1 7))
    (.real 9 0 0 (.replicate 1 7)) (by decide) (by decide)
  exact (tie.mpr (by decide)).1

end Roga
