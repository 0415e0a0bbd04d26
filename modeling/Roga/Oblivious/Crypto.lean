import Roga.Oblivious.Ct

/-! Key preparation: the CBC-MAC tag of `crypto.rs` over a block cipher, which
is a fixed function of its key, and `copy_prefix`. -/
namespace Roga
open Ct

/-- One block of the cipher under a fixed key. -/
abbrev Aes128 := Vector UInt8 16 → Vector UInt8 16

/-- `copy_prefix::<N>`: truncate or pad with zeros. -/
def copyPrefix (N : Nat) (src : List UInt8) : Vector UInt8 N := Vector.ofFn fun i => src.getD i 0

/-- `state[j] ^= chunk[j]` for the 16 bytes, then one encryption. -/
def absorb (prf : Aes128) (state : Vector UInt8 16) (chunk : Vector UInt8 16) : Vector UInt8 16 :=
  prf (Vector.zipWith (· ^^^ ·) state chunk)

/-- CBC-MAC over the 16-byte chunks and the zero-padded remainder; an empty key
is one zero block. -/
def prfTag (prf : Aes128) (key : List UInt8) : UInt64 :=
  let chunks := (List.range (key.length / 16)).map fun i => copyPrefix 16 (key.drop (16 * i))
  let remainder := key.drop (key.length / 16 * 16)
  let state := chunks.foldl (absorb prf) (Vector.replicate 16 0)
  let state :=
    if remainder ≠ [] ∨ key = [] then absorb prf state (copyPrefix 16 remainder) else state
  fromLeBytes (state.toList.take 8)

end Roga
