import Roga.Histogram.Routing

/-! The ORAM block of `block.rs`. Values are any type with an addition and a
default; moving one under a condition is the plain `if`, which their own conditional move is
when it is a full one. -/
namespace Roga
open Ct

/-- `tag == 0` encodes a dummy slot, whose other fields may be stale. -/
@[ext] structure OramBlock (K : Nat) (V : Type) where
  tag : UInt64
  epoch : UInt8
  value : V
  payload : Vector UInt8 K
deriving DecidableEq

namespace OramBlock
variable {K : Nat} {V : Type}

/-- `Reducible::ct_is_real` -/
def ctIsReal (block : OramBlock K V) : UInt8 := Roga.ctIsReal block.tag

/-- `Reducible::ct_identity_eq` -/
def ctIdentityEq (block other : OramBlock K V) : UInt8 := ctEqBytes block.payload other.payload

/-- `move` is the conditional move of the values. -/
def cmovBy (move : V → V → UInt8 → V) (block other : OramBlock K V) (choice : Bool) : OramBlock K V :=
  { tag := cmovnz block.tag other.tag choice.toUInt8
    epoch := cmovnz block.epoch other.epoch choice.toUInt8
    payload := cmovnz block.payload other.payload choice.toUInt8
    value := move block.value other.value choice.toUInt8 }

/-- Under a full move of the values (`cmovBy_eq_cmov`). -/
def cmov (block other : OramBlock K V) (choice : Bool) : OramBlock K V :=
  { tag := cmovnz block.tag other.tag choice.toUInt8
    epoch := cmovnz block.epoch other.epoch choice.toUInt8
    payload := cmovnz block.payload other.payload choice.toUInt8
    value := cmovnz block.value other.value choice.toUInt8 }

def conditionalDummy (block : OramBlock K V) (cond : UInt8) : OramBlock K V :=
  { block with tag := cmovnz block.tag 0 cond }

def assignIf (block : OramBlock K V) (tag : UInt64) (epoch : UInt8) (value : V)
    (payload : Vector UInt8 K) (cond : UInt8) : OramBlock K V :=
  block.cmov { tag, epoch, value, payload } (cond != 0)

def real (tag : UInt64) (epoch : UInt8) (value : V) (payload : Vector UInt8 K) : OramBlock K V :=
  { tag, epoch, value, payload }

def dummy [Inhabited V] : OramBlock K V :=
  { tag := 0, epoch := 0, value := default, payload := Vector.replicate K 0 }

/-- The reality test as a Boolean, for filtering. -/
def isReal (block : OramBlock K V) : Bool := block.tag != 0

@[simp] theorem ctIsReal_isReal (block : OramBlock K V) : block.ctIsReal = block.isReal.toUInt8 := by
  rw [ctIsReal, ctIsReal_spec, isReal]
  congr 1
  by_cases h : block.tag = 0 <;> simp [h]

theorem isReal_iff {block : OramBlock K V} : block.isReal = true ↔ block.tag ≠ 0 := by
  simp [isReal]

theorem isReal_eq_false {block : OramBlock K V} : block.isReal = false ↔ block.tag = 0 := by
  simp [isReal]

@[simp] theorem isReal_dummy [Inhabited V] : (dummy : OramBlock K V).isReal = false := rfl

@[simp] theorem ctIdentityEq_spec (block other : OramBlock K V) :
    block.ctIdentityEq other = (decide (block.payload = other.payload)).toUInt8 := ctEqBytes_spec _ _

@[simp] theorem cmov_spec (block other : OramBlock K V) (choice : Bool) :
    block.cmov other choice = if choice then other else block := by
  cases choice <;> simp [cmov]

/-- The block with its value seen through `view`. -/
def viewed {W : Type} (view : V → W) (block : OramBlock K V) : OramBlock K W :=
  { tag := block.tag, epoch := block.epoch, value := view block.value, payload := block.payload }

theorem viewed_cmovBy {W : Type} {view : V → W} {move : V → V → UInt8 → V} (full : FullMove view move)
    (block other : OramBlock K V) (choice : Bool) :
    (block.cmovBy move other choice).viewed view = (block.cmov other choice).viewed view := by
  simp only [viewed, cmovBy, cmov, full block.value other.value choice.toUInt8]

theorem cmovBy_eq_cmov {move : V → V → UInt8 → V} (full : FullMove id move) (block other : OramBlock K V) (choice : Bool) :
    block.cmovBy move other choice = block.cmov other choice :=
  viewed_cmovBy full block other choice

@[simp] theorem conditionalDummy_toUInt8 (block : OramBlock K V) (b : Bool) :
    block.conditionalDummy b.toUInt8 = if b then { block with tag := 0 } else block := by
  cases b <;> simp [conditionalDummy]

@[simp] theorem assignIf_toUInt8 (block : OramBlock K V) (tag : UInt64) (epoch : UInt8) (value : V)
    (payload : Vector UInt8 K) (b : Bool) :
    block.assignIf tag epoch value payload b.toUInt8 =
      if b then { tag, epoch, value, payload } else block := by
  simp [assignIf]

end OramBlock

/-- The real blocks of a slice, in order. -/
def reals {K : Nat} {V : Type} (blocks : List (OramBlock K V)) : List (OramBlock K V) :=
  blocks.filter OramBlock.isReal

namespace Reals
variable {K : Nat} {V : Type} {xs ys : List (OramBlock K V)} {b : OramBlock K V}

@[simp] theorem reals_nil : reals ([] : List (OramBlock K V)) = [] := rfl

@[simp] theorem reals_append (xs ys : List (OramBlock K V)) :
    reals (xs ++ ys) = reals xs ++ reals ys := List.filter_append ..

theorem mem_reals : b ∈ reals xs ↔ b ∈ xs ∧ b.isReal = true := List.mem_filter

theorem reals_perm (h : xs.Perm ys) : (reals xs).Perm (reals ys) := h.filter _

theorem reals_cons_real (h : b.isReal = true) : reals (b :: xs) = b :: reals xs :=
  List.filter_cons_of_pos h

theorem reals_cons_dummy (h : b.isReal = false) : reals (b :: xs) = reals xs :=
  List.filter_cons_of_neg (by simp [h])

theorem reals_eq_nil : reals xs = [] ↔ ∀ b ∈ xs, b.isReal = false := by
  simp [reals]

theorem reals_eq_self (h : ∀ b ∈ xs, b.isReal = true) : reals xs = xs := List.filter_eq_self.mpr h

@[simp] theorem reals_replicate_dummy [Inhabited V] (n : Nat) :
    reals (List.replicate n (OramBlock.dummy : OramBlock K V)) = [] := by
  simp [reals_eq_nil]

end Reals
end Roga
