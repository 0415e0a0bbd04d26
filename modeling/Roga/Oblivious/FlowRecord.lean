import Mathlib.Order.Bounds.Basic
import Mathlib.Tactic
import Roga.Oblivious.Block

/-! The flow record of `block.rs`: its merge adds counters, widens a time range and
collects flags, so that a set of records has one total up to the padding. -/
namespace Roga
open Ct

@[ext] structure FlowRecord where
  packetCount : UInt64
  byteSum : UInt64
  firstSeen : UInt32
  lastSeen : UInt32
  recordCount : UInt32
  tcpFlags : UInt16
  padding : UInt16
deriving DecidableEq

namespace FlowRecord

instance : Inhabited FlowRecord where
  default :=
    { packetCount := 0, byteSum := 0, firstSeen := 0xFFFFFFFF, lastSeen := 0, recordCount := 0, tcpFlags := 0,
      padding := 0 }

/-- The conditional move of a record, which leaves the padding where it is. -/
def cmovnz (self other : FlowRecord) (condition : UInt8) : FlowRecord where
  packetCount := Ct.cmovnz self.packetCount other.packetCount condition
  byteSum := Ct.cmovnz self.byteSum other.byteSum condition
  firstSeen := Ct.cmovnz self.firstSeen other.firstSeen condition
  lastSeen := Ct.cmovnz self.lastSeen other.lastSeen condition
  recordCount := Ct.cmovnz self.recordCount other.recordCount condition
  tcpFlags := Ct.cmovnz self.tcpFlags other.tcpFlags condition
  padding := self.padding

instance : Add FlowRecord where
  add self rhs :=
    { packetCount := self.packetCount + rhs.packetCount
      byteSum := self.byteSum + rhs.byteSum
      firstSeen := ctMinU32 self.firstSeen rhs.firstSeen
      lastSeen := ctMaxU32 self.lastSeen rhs.lastSeen
      recordCount := self.recordCount + rhs.recordCount
      tcpFlags := self.tcpFlags ||| rhs.tcpFlags
      padding := 0 }

/-- The record with its padding cleared: all that a merge reads. -/
def unpadded (r : FlowRecord) : FlowRecord := { r with padding := 0 }

/-- Up to the padding the conditional move is the choice between the records. -/
theorem cmovnz_unpadded (self other : FlowRecord) (condition : UInt8) :
    (self.cmovnz other condition).unpadded = (Ct.cmovnz self other condition).unpadded := by
  rw [Ct.cmovnz]
  split
  · rename_i moved
    simp only [cmovnz, unpadded, Ct.cmovnz, if_pos moved]
  · rename_i kept
    simp only [cmovnz, unpadded, Ct.cmovnz, if_neg kept]

/-- Nothing reads the padding, which is all that the move of a record leaves behind. -/
theorem cmovnz_full : FullMove unpadded cmovnz := cmovnz_unpadded

theorem cmovBy_unpadded {K : Nat} (block other : OramBlock K FlowRecord) (choice : Bool) :
    (block.cmovBy cmovnz other choice).viewed unpadded = (block.cmov other choice).viewed unpadded :=
  OramBlock.viewed_cmovBy cmovnz_full block other choice

/-- The merge of two records reads nothing of their padding. -/
theorem add_unpadded (a b : FlowRecord) : a.unpadded + b.unpadded = a + b := rfl

section Fields
variable (a b : FlowRecord)

@[simp] theorem add_packetCount : (a + b).packetCount = a.packetCount + b.packetCount := rfl

@[simp] theorem add_byteSum : (a + b).byteSum = a.byteSum + b.byteSum := rfl

@[simp] theorem add_recordCount : (a + b).recordCount = a.recordCount + b.recordCount := rfl

@[simp] theorem add_tcpFlags : (a + b).tcpFlags = a.tcpFlags ||| b.tcpFlags := rfl

@[simp] theorem add_padding : (a + b).padding = 0 := rfl

@[simp] theorem add_firstSeen_toNat : (a + b).firstSeen.toNat = min a.firstSeen.toNat b.firstSeen.toNat :=
  ctMinU32_toNat _ _

@[simp] theorem add_lastSeen_toNat : (a + b).lastSeen.toNat = max a.lastSeen.toNat b.lastSeen.toNat :=
  ctMaxU32_toNat _ _

end Fields

/-- The values that a field takes in a list of records. -/
def valuesOf (field : FlowRecord → UInt32) (rs : List FlowRecord) : Set Nat :=
  {n | ∃ r ∈ rs, (field r).toNat = n}

/-- `total` is what the records of the list come to, whatever its padding. -/
structure Aggregates (rs : List FlowRecord) (total : FlowRecord) : Prop where
  packetCount : total.packetCount.toNat = (rs.map fun r => r.packetCount.toNat).sum % 2 ^ 64
  byteSum : total.byteSum.toNat = (rs.map fun r => r.byteSum.toNat).sum % 2 ^ 64
  recordCount : total.recordCount.toNat = (rs.map fun r => r.recordCount.toNat).sum % 2 ^ 32
  firstSeen : IsLeast (valuesOf FlowRecord.firstSeen rs) total.firstSeen.toNat
  lastSeen : IsGreatest (valuesOf FlowRecord.lastSeen rs) total.lastSeen.toNat
  tcpFlags : ∀ i, total.tcpFlags.toNat.testBit i = rs.any fun r => r.tcpFlags.toNat.testBit i

section Aggregate
variable {rs ss : List FlowRecord} {a b : FlowRecord}

theorem valuesOf_singleton (field : FlowRecord → UInt32) (r : FlowRecord) :
    valuesOf field [r] = {(field r).toNat} := by
  ext n
  simp [valuesOf, eq_comm]

theorem valuesOf_append (field : FlowRecord → UInt32) (rs ss : List FlowRecord) :
    valuesOf field (rs ++ ss) = valuesOf field rs ∪ valuesOf field ss := by
  ext n
  simp only [valuesOf, List.mem_append, or_and_right, exists_or]
  rfl

theorem valuesOf_perm (field : FlowRecord → UInt32) (perm : rs.Perm ss) : valuesOf field ss = valuesOf field rs := by
  ext n
  simp only [valuesOf, perm.mem_iff]

/-- A wrapping sum of two lists is the wrapping sum of their wrapping sums. -/
theorem sum_append_mod (count : FlowRecord → Nat) (rs ss : List FlowRecord) (w : Nat) :
    ((rs ++ ss).map count).sum % w = ((rs.map count).sum % w + (ss.map count).sum % w) % w := by
  rw [List.map_append, List.sum_append, Nat.add_mod]

theorem Aggregates.single (r : FlowRecord) : Aggregates [r] r where
  packetCount := by
    rw [List.map_singleton, List.sum_singleton, Nat.mod_eq_of_lt r.packetCount.toNat_lt]
  byteSum := by
    rw [List.map_singleton, List.sum_singleton, Nat.mod_eq_of_lt r.byteSum.toNat_lt]
  recordCount := by
    rw [List.map_singleton, List.sum_singleton, Nat.mod_eq_of_lt r.recordCount.toNat_lt]
  firstSeen := by
    rw [valuesOf_singleton]
    exact isLeast_singleton
  lastSeen := by
    rw [valuesOf_singleton]
    exact isGreatest_singleton
  tcpFlags := by
    intro i
    rw [List.any_cons, List.any_nil, Bool.or_false]

/-- The merge of two totals is the total of both lists. -/
theorem Aggregates.add (left : Aggregates rs a) (right : Aggregates ss b) : Aggregates (rs ++ ss) (a + b) where
  packetCount := by
    rw [add_packetCount, UInt64.toNat_add, left.packetCount, right.packetCount, sum_append_mod]
  byteSum := by
    rw [add_byteSum, UInt64.toNat_add, left.byteSum, right.byteSum, sum_append_mod]
  recordCount := by
    rw [add_recordCount, UInt32.toNat_add, left.recordCount, right.recordCount, sum_append_mod]
  firstSeen := by
    rw [valuesOf_append, add_firstSeen_toNat]
    exact left.firstSeen.union right.firstSeen
  lastSeen := by
    rw [valuesOf_append, add_lastSeen_toNat]
    exact left.lastSeen.union right.lastSeen
  tcpFlags := by
    intro i
    rw [add_tcpFlags, UInt16.toNat_or, Nat.testBit_or, left.tcpFlags, right.tcpFlags, List.any_append]

theorem Aggregates.perm (total : Aggregates rs a) (perm : rs.Perm ss) : Aggregates ss a where
  packetCount := total.packetCount.trans (congrArg (· % 2 ^ 64) (perm.map _).sum_eq)
  byteSum := total.byteSum.trans (congrArg (· % 2 ^ 64) (perm.map _).sum_eq)
  recordCount := total.recordCount.trans (congrArg (· % 2 ^ 32) (perm.map _).sum_eq)
  firstSeen := by
    rw [valuesOf_perm _ perm]
    exact total.firstSeen
  lastSeen := by
    rw [valuesOf_perm _ perm]
    exact total.lastSeen
  tcpFlags := by
    intro i
    rw [total.tcpFlags, perm.any_eq]

/-- A list has one total, up to the padding. -/
theorem Aggregates.unique (left : Aggregates rs a) (right : Aggregates rs b) : a.unpadded = b.unpadded := by
  apply FlowRecord.ext
  · exact UInt64.toNat_inj.mp (left.packetCount.trans right.packetCount.symm)
  · exact UInt64.toNat_inj.mp (left.byteSum.trans right.byteSum.symm)
  · exact UInt32.toNat_inj.mp (left.firstSeen.unique right.firstSeen)
  · exact UInt32.toNat_inj.mp (left.lastSeen.unique right.lastSeen)
  · exact UInt32.toNat_inj.mp (left.recordCount.trans right.recordCount.symm)
  · apply UInt16.toNat_inj.mp
    apply Nat.eq_of_testBit_eq
    intro i
    exact (left.tcpFlags i).trans (right.tcpFlags i).symm
  · rfl

/-- The default is neutral: it reads as no record at all. -/
theorem default_add (a : FlowRecord) : default + a = a.unpadded := by
  have first := a.firstSeen.toNat_lt
  apply FlowRecord.ext
  · exact UInt64.zero_add _
  · exact UInt64.zero_add _
  · apply UInt32.toNat_inj.mp
    rw [add_firstSeen_toNat]
    exact Nat.min_eq_right (Nat.le_of_lt_succ first)
  · apply UInt32.toNat_inj.mp
    rw [add_lastSeen_toNat]
    exact Nat.max_eq_right (Nat.zero_le _)
  · exact UInt32.zero_add _
  · exact UInt16.zero_or
  · rfl

theorem Aggregates.unpadded (total : Aggregates rs a) : Aggregates rs a.unpadded :=
  ⟨total.packetCount, total.byteSum, total.recordCount, total.firstSeen, total.lastSeen, total.tcpFlags⟩

theorem Aggregates.with_defaults (total : Aggregates rs a) (n : Nat) :
    Aggregates (List.replicate n default ++ rs) a.unpadded := by
  induction n with
  | zero => exact total.unpadded
  | succ n ih =>
    have more := (Aggregates.single default).add ih
    rw [default_add] at more
    exact more

/-- `+` is commutative and associative on the nose, since every sum has padding 0. -/
theorem eq_of_unpadded (ha : a.padding = 0) (hb : b.padding = 0) (same : a.unpadded = b.unpadded) : a = b := by
  cases a
  cases b
  cases ha
  cases hb
  exact same

instance : AddCommSemigroup FlowRecord where
  add_assoc a b c := by
    have left := ((Aggregates.single a).add (Aggregates.single b)).add (Aggregates.single c)
    have right := (Aggregates.single a).add ((Aggregates.single b).add (Aggregates.single c))
    exact eq_of_unpadded rfl rfl (left.unique right)
  add_comm a b := by
    have left := (Aggregates.single a).add (Aggregates.single b)
    have right := (Aggregates.single b).add (Aggregates.single a)
    exact eq_of_unpadded rfl rfl ((left.perm (List.Perm.swap b a [])).unique right)

end Aggregate
end FlowRecord

/-- One way to put brackets into a sum. -/
inductive Bracketing (α : Type) where
  | leaf (a : α)
  | merge (left right : Bracketing α)

namespace Bracketing
variable {α : Type}

def leaves : Bracketing α → List α
  | .leaf a => [a]
  | .merge left right => left.leaves ++ right.leaves

def fold [Add α] : Bracketing α → α
  | .leaf a => a
  | .merge left right => left.fold + right.fold

theorem fold_aggregates (t : Bracketing FlowRecord) : FlowRecord.Aggregates t.leaves t.fold := by
  induction t with
  | leaf a => exact .single a
  | merge left right ihl ihr => exact ihl.add ihr

end Bracketing

/-- A list of records has one total up to the padding, in whatever order and with
whatever brackets it is merged, and with or without default records among them. -/
theorem flow_records_merge_in_any_order {rs : List FlowRecord} {t : Bracketing FlowRecord}
    (perm : t.leaves.Perm rs) :
    FlowRecord.Aggregates rs t.fold ∧
    (∀ t' : Bracketing FlowRecord, t'.leaves.Perm rs → t'.fold.unpadded = t.fold.unpadded) ∧
    ∀ (n : Nat) (t' : Bracketing FlowRecord), t'.leaves.Perm (List.replicate n default ++ rs) →
      t'.fold.unpadded = t.fold.unpadded := by
  have total := t.fold_aggregates.perm perm
  refine ⟨total, ?_, ?_⟩
  · intro t' perm'
    exact (t'.fold_aggregates.perm perm').unique total
  · intro n t' perm'
    have same := (t'.fold_aggregates.perm perm').unique (total.with_defaults n)
    exact same

theorem flow_records_merge_in_any_order_two :
    let syn : FlowRecord :=
      { packetCount := 10, byteSum := 1500, firstSeen := 100, lastSeen := 105, recordCount := 1, tcpFlags := 0x02,
        padding := 0 }
    let ack : FlowRecord :=
      { packetCount := 20, byteSum := 3000, firstSeen := 90, lastSeen := 120, recordCount := 1, tcpFlags := 0x10,
        padding := 0 }
    (ack + (default + syn)).unpadded = (syn + ack).unpadded := by
  intro syn ack
  exact (flow_records_merge_in_any_order (t := .merge (.leaf syn) (.leaf ack)) (.refl _)).2.2 1
    (.merge (.leaf ack) (.merge (.leaf default) (.leaf syn))) (by decide)

end Roga
