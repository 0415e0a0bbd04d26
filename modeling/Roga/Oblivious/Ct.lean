import Mathlib.Data.Nat.Digits.Lemmas
import Mathlib.Data.UInt

/-! Branch-free scalar helpers of `ct.rs`. Conditions are bytes holding 0 or 1;
the conditional moves of the external cmov crate are the documented `if`, and that of a
value is taken to be a full move. -/
namespace Roga.Ct

/-- `cmovnz`: move `other` into `self` when the condition byte is non-zero. -/
def cmovnz {α : Type} (self other : α) (condition : UInt8) : α :=
  if condition ≠ 0 then other else self

/-- Up to `view`, a conditional move takes one of its arguments whole. With `view` the identity
this is the documented behaviour of `Cmov`, and the models below that move a value of a
type `V` assume it of the `Cmov` of `V`. -/
def FullMove {α β : Type} (view : α → β) (move : α → α → UInt8 → α) : Prop :=
  ∀ self other condition, view (move self other condition) = view (cmovnz self other condition)

/-- `cmoveq` of the cmov crate writes 1 exactly on equality. -/
def ctEq {α : Type} [DecidableEq α] (a b : α) : UInt8 := if a = b then 1 else 0

/-- Little-endian `from_ne_bytes` / `from_le_bytes`. -/
def fromLeBytes (bytes : List UInt8) : UInt64 :=
  UInt64.ofNat (Nat.ofDigits 256 (bytes.map UInt8.toNat))

def ctEqBytes {N : Nat} (a b : Vector UInt8 N) : UInt8 :=
  if N = 16 then
    let a0 := fromLeBytes (a.toList.take 8)
    let a1 := fromLeBytes ((a.toList.drop 8).take 8)
    let b0 := fromLeBytes (b.toList.take 8)
    let b1 := fromLeBytes ((b.toList.drop 8).take 8)
    let diff := (a0 ^^^ b0) ||| (a1 ^^^ b1)
    (((diff ||| -diff) >>> 63) ^^^ 1).toUInt8
  else if N = 8 then
    let diff := fromLeBytes (a.toList.take 8) ^^^ fromLeBytes (b.toList.take 8)
    (((diff ||| -diff) >>> 63) ^^^ 1).toUInt8
  else
    let acc := (a.toList.zip b.toList).foldl (fun acc xy => acc ||| (xy.1 ^^^ xy.2)) (0 : UInt8)
    let acc32 := acc.toUInt32
    (((acc32 - 1) &&& ~~~acc32) >>> 31).toUInt8

def ctLt (a b : UInt64) : UInt8 :=
  let diff := a - b
  let borrow := (~~~a &&& b) ||| (~~~(a ^^^ b) &&& diff)
  ((borrow >>> 63) &&& 1).toUInt8

def ctNot (cond : UInt8) : UInt8 := cond ^^^ 1

def ctLtU8 (a b : UInt8) : UInt8 :=
  let diff := a - b
  let borrow := (~~~a &&& b) ||| (~~~(a ^^^ b) &&& diff)
  (borrow >>> 7) &&& 1

def ctMinU8 (a b : UInt8) : UInt8 := cmovnz a b (ctLtU8 b a)

def ctLtU32 (a b : UInt32) : UInt8 :=
  let diff := a - b
  let borrow := (~~~a &&& b) ||| (~~~(a ^^^ b) &&& diff)
  ((borrow >>> 31) &&& 1).toUInt8

def ctMinU32 (a b : UInt32) : UInt32 := cmovnz a b (ctLtU32 b a)

def ctMaxU32 (a b : UInt32) : UInt32 := cmovnz a b (ctLtU32 a b)

/-- Conditional exchange of two slots of a slice (`cswap_fast`). -/
def cswapFast {α : Type} (arr : List α) (i j : Nat) (choice : Bool) : List α :=
  match arr[i]?, arr[j]? with
  | some a, some b => if choice then (arr.set i b).set j a else arr
  | _, _ => arr

/-! Condition bytes are the images of `Bool.toUInt8`; masks become connectives. -/

@[simp] theorem toUInt8_and (a b : Bool) : a.toUInt8 &&& b.toUInt8 = (a && b).toUInt8 := by
  cases a <;> cases b <;> rfl

@[simp] theorem toUInt8_or (a b : Bool) : a.toUInt8 ||| b.toUInt8 = (a || b).toUInt8 := by
  cases a <;> cases b <;> rfl

@[simp] theorem ctNot_toUInt8 (b : Bool) : ctNot b.toUInt8 = (!b).toUInt8 := by
  cases b <;> rfl

@[simp] theorem toUInt8_eq_zero (b : Bool) : b.toUInt8 = 0 ↔ b = false := by
  cases b <;> decide

theorem toUInt8_eq_one (b : Bool) : b.toUInt8 = 1 ↔ b = true := by
  cases b <;> decide

@[simp] theorem toUInt8_bne_zero (b : Bool) : (b.toUInt8 != 0) = b := by
  cases b <;> rfl

@[simp] theorem toUInt8_toNat (b : Bool) : b.toUInt8.toNat = b.toNat := by
  cases b <;> rfl

@[simp] theorem toUInt8_and_one (b : Bool) : b.toUInt8 &&& 1 = b.toUInt8 := by
  cases b <;> rfl

@[simp] theorem cmovnz_toUInt8 {α : Type} (self other : α) (b : Bool) :
    cmovnz self other b.toUInt8 = if b then other else self := by
  cases b <;> rfl

theorem ctEq_spec {α : Type} [DecidableEq α] (a b : α) : ctEq a b = (decide (a = b)).toUInt8 := by
  by_cases h : a = b <;> simp [ctEq, h] <;> rfl

/-- The borrow bit of `a - b` is the comparison, at every width. -/
theorem borrow_msb {w : Nat} (hw : 0 < w) (a b : BitVec w) :
    ((~~~a &&& b) ||| (~~~(a ^^^ b) &&& (a - b))).msb = decide (a < b) := by
  obtain ⟨v, rfl⟩ : ∃ v, w = v + 1 := ⟨w - 1, by omega⟩
  have ha := a.isLt
  have hb := b.isLt
  have diff : (a - b).msb = decide (2 ^ v ≤ if a.toNat < b.toNat
      then 2 ^ v * 2 + a.toNat - b.toNat else a.toNat - b.toNat) := by
    rw [BitVec.msb_eq_decide, BitVec.toNat_sub, Nat.add_sub_cancel, Nat.pow_succ]
    rw [Nat.pow_succ] at ha hb
    congr 2
    split
    · rw [Nat.mod_eq_of_lt (by omega)]; omega
    · rw [Nat.mod_eq_sub_mod (by omega), Nat.mod_eq_of_lt (by omega)]; omega
  simp only [BitVec.msb_or, BitVec.msb_and, BitVec.msb_not, BitVec.msb_xor, hw, decide_true,
    Bool.true_and, diff]
  simp only [BitVec.msb_eq_decide, Nat.add_sub_cancel, BitVec.lt_def]
  rw [Nat.pow_succ] at ha hb
  by_cases h₁ : 2 ^ v ≤ a.toNat <;> by_cases h₂ : 2 ^ v ≤ b.toNat <;>
    simp [h₁, h₂] <;> first | omega | (split <;> omega)

theorem shift_msb_bit (x : UInt64) : ((x >>> 63) &&& 1).toUInt8 = x.toBitVec.msb.toUInt8 := by
  have hx := x.toNat_lt
  have hm := BitVec.msb_eq_decide x.toBitVec
  rw [UInt64.toNat_toBitVec] at hm
  apply UInt8.toNat_inj.mp
  by_cases h : 2 ^ (64 - 1) ≤ x.toNat
  · rw [hm, decide_eq_true h]
    simp [Nat.shiftRight_eq_div_pow, Nat.and_one_is_mod]
    omega
  · rw [hm, decide_eq_false h]
    simp [Nat.shiftRight_eq_div_pow, Nat.and_one_is_mod]
    omega

theorem shift_msb_bit_u8 (x : UInt8) : (x >>> 7) &&& 1 = x.toBitVec.msb.toUInt8 := by
  have hx := x.toNat_lt
  have hm := BitVec.msb_eq_decide x.toBitVec
  rw [UInt8.toNat_toBitVec] at hm
  apply UInt8.toNat_inj.mp
  by_cases h : 2 ^ (8 - 1) ≤ x.toNat
  · rw [hm, decide_eq_true h]
    simp [Nat.shiftRight_eq_div_pow, Nat.and_one_is_mod]
    omega
  · rw [hm, decide_eq_false h]
    simp [Nat.shiftRight_eq_div_pow, Nat.and_one_is_mod]
    omega

theorem shift_msb_bit_u32 (x : UInt32) : ((x >>> 31) &&& 1).toUInt8 = x.toBitVec.msb.toUInt8 := by
  have hx := x.toNat_lt
  have hm := BitVec.msb_eq_decide x.toBitVec
  rw [UInt32.toNat_toBitVec] at hm
  apply UInt8.toNat_inj.mp
  by_cases h : 2 ^ (32 - 1) ≤ x.toNat
  · rw [hm, decide_eq_true h]
    simp [Nat.shiftRight_eq_div_pow, Nat.and_one_is_mod]
    omega
  · rw [hm, decide_eq_false h]
    simp [Nat.shiftRight_eq_div_pow, Nat.and_one_is_mod]
    omega

theorem ctLt_spec (a b : UInt64) : ctLt a b = (decide (a < b)).toUInt8 := by
  have h := borrow_msb (by decide) a.toBitVec b.toBitVec
  simp only [ctLt, shift_msb_bit]
  exact congrArg Bool.toUInt8 h

/-- `ct_lt` on counters, which are numbers here and stay below 2^64. -/
def ctLtCount (a b : Nat) : UInt8 := (decide (a < b)).toUInt8

theorem ctLtU8_spec (a b : UInt8) : ctLtU8 a b = (decide (a < b)).toUInt8 := by
  have h := borrow_msb (by decide) a.toBitVec b.toBitVec
  simp only [ctLtU8, shift_msb_bit_u8]
  exact congrArg Bool.toUInt8 h

theorem ctMinU8_toNat (a b : UInt8) : (ctMinU8 a b).toNat = min a.toNat b.toNat := by
  simp only [ctMinU8, ctLtU8_spec, cmovnz_toUInt8, decide_eq_true_eq, UInt8.lt_iff_toNat_lt]
  split <;> omega

theorem ctLtU32_spec (a b : UInt32) : ctLtU32 a b = (decide (a < b)).toUInt8 := by
  have h := borrow_msb (by decide) a.toBitVec b.toBitVec
  simp only [ctLtU32, shift_msb_bit_u32]
  exact congrArg Bool.toUInt8 h

theorem ctMinU32_toNat (a b : UInt32) : (ctMinU32 a b).toNat = min a.toNat b.toNat := by
  simp only [ctMinU32, ctLtU32_spec, cmovnz_toUInt8, decide_eq_true_eq, UInt32.lt_iff_toNat_lt]
  split <;> omega

theorem ctMaxU32_toNat (a b : UInt32) : (ctMaxU32 a b).toNat = max a.toNat b.toNat := by
  simp only [ctMaxU32, ctLtU32_spec, cmovnz_toUInt8, decide_eq_true_eq, UInt32.lt_iff_toNat_lt]
  split <;> omega

/-- `(x | -x) >> 63` is the non-zero test. -/
theorem nonzero_bit (x : UInt64) : (x ||| -x) >>> 63 = if x = 0 then 0 else 1 := by
  have hx := x.toNat_lt
  split
  · subst x; decide
  · rename_i hne
    have hpos : 0 < x.toNat := Nat.pos_of_ne_zero fun h => hne (UInt64.toNat_inj.mp h)
    have low : 2 ^ 63 ≤ (x ||| -x).toNat := by
      rw [UInt64.toNat_or]
      by_cases h : 2 ^ 63 ≤ x.toNat
      · exact h.trans Nat.left_le_or
      · refine le_trans ?_ Nat.right_le_or
        rw [UInt64.toNat_neg, show UInt64.size = 2 ^ 64 from rfl, Nat.mod_eq_of_lt (by omega)]
        omega
    have high := (x ||| -x).toNat_lt
    apply UInt64.toNat_inj.mp
    rw [UInt64.toNat_shiftRight, Nat.shiftRight_eq_div_pow]
    change _ / 2 ^ 63 = 1
    omega

theorem fromLeBytes_inj {xs ys : List UInt8} (len : xs.length = ys.length) (short : xs.length ≤ 8)
    (h : fromLeBytes xs = fromLeBytes ys) : xs = ys := by
  have bound : ∀ zs : List UInt8, zs.length ≤ 8 → Nat.ofDigits 256 (zs.map UInt8.toNat) < 2 ^ 64 := by
    intro zs hz
    have small := Nat.ofDigits_lt_base_pow_length (b := 256) (l := zs.map UInt8.toNat) (by decide)
      (by intro d hd; obtain ⟨z, -, rfl⟩ := List.mem_map.mp hd; exact z.toNat_lt)
    rw [List.length_map] at small
    exact small.trans_le ((Nat.pow_le_pow_right (by decide) hz).trans (by decide))
  have digits : Nat.ofDigits 256 (xs.map UInt8.toNat) = Nat.ofDigits 256 (ys.map UInt8.toNat) := by
    have hn := congrArg UInt64.toNat h
    simpa only [fromLeBytes, UInt64.toNat_ofNat', Nat.mod_eq_of_lt (bound xs short),
      Nat.mod_eq_of_lt (bound ys (len ▸ short))] using hn
  have inBase : ∀ zs : List UInt8, ∀ d ∈ zs.map UInt8.toNat, d < 256 := by
    intro zs d hd
    obtain ⟨z, -, rfl⟩ := List.mem_map.mp hd
    exact z.toNat_lt
  have maps := Nat.ofDigits_inj_of_len_eq (by decide) (by simpa using len) (inBase xs) (inBase ys) digits
  exact List.map_injective_iff.mpr (fun _ _ => UInt8.toNat_inj.mp) maps

theorem or_eq_zero {a b : UInt64} : a ||| b = 0 ↔ a = 0 ∧ b = 0 := by
  rw [← UInt64.toNat_inj, ← UInt64.toNat_inj, ← UInt64.toNat_inj, UInt64.toNat_or]
  exact Nat.or_eq_zero_iff

theorem xor_eq_zero {a b : UInt64} : a ^^^ b = 0 ↔ a = b := by
  rw [← UInt64.toBitVec_inj, ← UInt64.toBitVec_inj, UInt64.toBitVec_xor]
  exact BitVec.xor_eq_zero_iff

theorem fold_or_xor (xs ys : List UInt8) (len : xs.length = ys.length) (acc : UInt8) :
    (xs.zip ys).foldl (fun acc xy => acc ||| (xy.1 ^^^ xy.2)) acc = 0 ↔ acc = 0 ∧ xs = ys := by
  induction xs generalizing ys acc with
  | nil => cases ys <;> simp_all
  | cons x xs ih =>
    cases ys with
    | nil => simp at len
    | cons y ys =>
      have head : acc ||| (x ^^^ y) = 0 ↔ acc = 0 ∧ x = y := by
        rw [← UInt8.toBitVec_inj, ← UInt8.toBitVec_inj, ← UInt8.toBitVec_inj, UInt8.toBitVec_or,
          UInt8.toBitVec_xor]
        exact BitVec.or_eq_zero_iff.trans (and_congr_right fun _ => BitVec.xor_eq_zero_iff)
      simp only [List.zip_cons_cons, List.foldl_cons, ih ys (by simpa using len), head,
        List.cons.injEq, and_assoc]

theorem zero_byte_bit (acc : UInt8) :
    (((acc.toUInt32 - 1) &&& ~~~acc.toUInt32) >>> 31).toUInt8 = (decide (acc = 0)).toUInt8 := by
  have all : ∀ v : BitVec 8, ((((UInt8.ofBitVec v).toUInt32 - 1) &&&
      ~~~(UInt8.ofBitVec v).toUInt32) >>> 31).toUInt8 =
        (decide (UInt8.ofBitVec v = 0)).toUInt8 := by
    decide +kernel
  exact all acc.toBitVec

theorem zero_word_bit (diff : UInt64) :
    (((diff ||| -diff) >>> 63) ^^^ 1).toUInt8 = (decide (diff = 0)).toUInt8 := by
  rw [nonzero_bit]
  by_cases h : diff = 0 <;> simp [h] <;> rfl

/-- All three code paths of `ct_eq_bytes` decide equality. -/
theorem ctEqBytes_spec {N : Nat} (a b : Vector UInt8 N) :
    ctEqBytes a b = (decide (a = b)).toUInt8 := by
  have lists : a = b ↔ a.toList = b.toList := Vector.toList_inj.symm
  unfold ctEqBytes
  split
  · rename_i hN
    simp only [zero_word_bit, or_eq_zero, xor_eq_zero]
    congr 2
    rw [lists, eq_iff_iff]
    refine ⟨fun ⟨h₀, h₁⟩ => ?_, fun h => by simp [h]⟩
    have e₀ := fromLeBytes_inj (by simp) (by simp) h₀
    have e₁ := fromLeBytes_inj (by simp) (by simp) h₁
    rw [List.take_of_length_le (by simp [hN]), List.take_of_length_le (by simp [hN])] at e₁
    rw [← List.take_append_drop 8 a.toList, ← List.take_append_drop 8 b.toList, e₀, e₁]
  · split
    · rename_i hN
      simp only [zero_word_bit, xor_eq_zero]
      congr 2
      rw [lists, eq_iff_iff]
      refine ⟨fun h => ?_, fun h => by simp [h]⟩
      have e := fromLeBytes_inj (by simp) (by simp) h
      rwa [List.take_of_length_le (by simp [hN]), List.take_of_length_le (by simp [hN])] at e
    · have len : a.toList.length = b.toList.length := by simp
      simp only [zero_byte_bit, fold_or_xor _ _ len, true_and, lists]

/-- A number that an `i32` can hold, or whose negative it can, is negated exactly after its cast. -/
theorem toInt_neg_ofNat {n : Nat} (fits : n ≤ 2 ^ 31) : (-Int32.ofNat n).toInt = -n := by
  rw [Int32.neg_ofNat, Int32.toInt_ofInt_of_le (by omega) (by omega)]

end Roga.Ct
