import Mathlib.Data.List.Basic
import Mathlib.Data.List.Perm.Basic
import Mathlib.Tactic

/-! Slices cut into buckets of `Z` consecutive slots. -/
namespace Roga
variable {T : Type}

/-- Bucket `i` of a slice. -/
def bucketAt (Z : Nat) (mem : List T) (i : Nat) : List T := (mem.drop (i * Z)).take Z

/-- `copy_from_slice` into bucket `i`. -/
def setBucket (Z : Nat) (mem : List T) (i : Nat) (xs : List T) : List T :=
  mem.take (i * Z) ++ xs ++ mem.drop (i * Z + Z)

section Buckets
variable {Z : Nat} {mem : List T} {i j : Nat} {xs : List T}

theorem bucket_fits {n : Nat} (h : i < n) : i * Z + Z ≤ n * Z := by
  rw [← Nat.succ_mul]
  exact Nat.mul_le_mul_right Z h

theorem bucketAt_length (fits : i * Z + Z ≤ mem.length) : (bucketAt Z mem i).length = Z := by
  rw [bucketAt, List.length_take, List.length_drop]
  omega

theorem bucketAt_getElem? (k : Nat) :
    (bucketAt Z mem i)[k]? = if k < Z then mem[i * Z + k]? else none := by
  rw [bucketAt, List.getElem?_take, List.getElem?_drop]

theorem setBucket_length (fits : i * Z + Z ≤ mem.length) (len : xs.length = Z) :
    (setBucket Z mem i xs).length = mem.length := by
  rw [setBucket, List.length_append, List.length_append, List.length_take, List.length_drop]
  omega

theorem bucketAt_setBucket_self (fits : i * Z + Z ≤ mem.length) (len : xs.length = Z) :
    bucketAt Z (setBucket Z mem i xs) i = xs := by
  have front : (mem.take (i * Z)).length = i * Z := by
    rw [List.length_take]
    omega
  rw [bucketAt, setBucket, List.append_assoc, List.drop_left' front, List.take_left' len]

theorem bucketAt_setBucket_ne (fits : i * Z + Z ≤ mem.length) (len : xs.length = Z) (h : j ≠ i) :
    bucketAt Z (setBucket Z mem i xs) j = bucketAt Z mem j := by
  apply List.ext_getElem?
  intro k
  rw [bucketAt_getElem?, bucketAt_getElem?]
  split
  · rename_i hk
    have front : (mem.take (i * Z)).length = i * Z := by
      rw [List.length_take]
      omega
    rcases Nat.lt_or_gt_of_ne h with lt | gt
    · have room := bucket_fits (Z := Z) lt
      rw [setBucket, List.append_assoc, List.getElem?_append_left (by omega),
        List.getElem?_take_of_lt (by omega)]
    · have room := bucket_fits (Z := Z) gt
      rw [setBucket, List.getElem?_append_right (by rw [List.length_append]; omega),
        List.getElem?_drop, List.length_append, front, len]
      congr 1
      omega
  · rfl

theorem bucketAt_append (fits : i * Z + Z ≤ mem.length) (xs : List T) :
    bucketAt Z (mem ++ xs) i = bucketAt Z mem i := by
  rw [bucketAt, bucketAt, List.drop_append_of_le_length (by omega),
    List.take_append_of_le_length (by rw [List.length_drop]; omega)]

theorem bucketAt_append_right {n : Nat} (len : mem.length = n * Z) (xs : List T) (i : Nat) :
    bucketAt Z (mem ++ xs) (n + i) = bucketAt Z xs i := by
  rw [bucketAt, bucketAt, Nat.add_mul, ← len, List.drop_append,
    List.drop_eq_nil_of_le (Nat.le_add_right _ _), List.nil_append, Nat.add_sub_cancel_left]

theorem bucketAt_bucketAt {W : Nat} (hi : i < W) :
    bucketAt Z (bucketAt (W * Z) mem j) i = bucketAt Z mem (j * W + i) := by
  have inside := bucket_fits (Z := Z) hi
  apply List.ext_getElem?
  intro k
  rw [bucketAt_getElem?, bucketAt_getElem?, bucketAt_getElem?]
  by_cases hk : k < Z
  · rw [if_pos hk, if_pos hk, if_pos (by omega), Nat.add_mul, Nat.mul_assoc, Nat.add_assoc]
  · rw [if_neg hk, if_neg hk]

theorem flatMap_bucketAt_take (Z n : Nat) (mem : List T) :
    (List.range n).flatMap (bucketAt Z mem) = mem.take (n * Z) := by
  induction n with
  | zero => simp
  | succ n ih =>
    rw [List.range_succ, List.flatMap_append, ih, List.flatMap_singleton, bucketAt, Nat.succ_mul, List.take_add]

/-- Neighbouring buckets are one slice. -/
theorem flatMap_bucketAt_add (Z m n : Nat) (mem : List T) :
    (List.range n).flatMap (fun s => bucketAt Z mem (m + s)) = (mem.drop (m * Z)).take (n * Z) := by
  rw [← flatMap_bucketAt_take]
  refine List.flatMap_congr fun s _ => ?_
  rw [bucketAt, bucketAt, List.drop_drop, Nat.add_mul]

/-- A slice is its buckets one after the other. -/
theorem flatMap_bucketAt {n : Nat} (len : mem.length = n * Z) :
    (List.range n).flatMap (bucketAt Z mem) = mem := by
  rw [flatMap_bucketAt_take, List.take_of_length_le len.le]

section Parts
variable {n : Nat} {part : Nat → List T} (len : ∀ s < n, (part s).length = Z)
include len

theorem flatMap_range_length : ((List.range n).flatMap part).length = n * Z := by
  rw [List.length_flatMap, List.map_congr_left fun s hs => len s (List.mem_range.mp hs)]
  simp

/-- Parts of one length one after the other are the buckets of the whole. -/
theorem bucketAt_flatMap {s : Nat} (hs : s < n) : bucketAt Z ((List.range n).flatMap part) s = part s := by
  induction n with
  | zero => exact absurd hs (Nat.not_lt_zero s)
  | succ n ih =>
    have front := flatMap_range_length fun t ht => len t (Nat.lt_succ_of_lt ht)
    rw [List.range_succ, List.flatMap_append, List.flatMap_singleton]
    rcases Nat.lt_succ_iff_lt_or_eq.mp hs with below | rfl
    · rw [bucketAt_append (front ▸ bucket_fits below)]
      exact ih (fun t ht => len t (Nat.lt_succ_of_lt ht)) below
    · rw [bucketAt, List.drop_left' front, List.take_of_length_le (len s hs).le]

end Parts

variable {ι : Type} {node : ι → Nat} {src : ι → List T} {ds : List ι}

/-- Writing several buckets. -/
def setBuckets (Z : Nat) (node : ι → Nat) (src : ι → List T) (ds : List ι) (mem : List T) : List T :=
  ds.foldl (fun mem d => setBucket Z mem (node d) (src d)) mem

theorem setBuckets_length (fits : ∀ d ∈ ds, node d * Z + Z ≤ mem.length)
    (len : ∀ d ∈ ds, (src d).length = Z) : (setBuckets Z node src ds mem).length = mem.length := by
  induction ds generalizing mem with
  | nil => rfl
  | cons d ds ih =>
    have step := setBucket_length (fits d (.head _)) (len d (.head _))
    rw [setBuckets, List.foldl_cons]
    refine (ih (fun d' hd' => ?_) fun d' hd' =>
      len d' (.tail _ hd')).trans step
    rw [step]
    exact fits d' (.tail _ hd')

theorem bucketAt_setBuckets_ne (fits : ∀ d ∈ ds, node d * Z + Z ≤ mem.length)
    (len : ∀ d ∈ ds, (src d).length = Z) (off : ∀ d ∈ ds, j ≠ node d) :
    bucketAt Z (setBuckets Z node src ds mem) j = bucketAt Z mem j := by
  induction ds generalizing mem with
  | nil => rfl
  | cons d ds ih =>
    have step := setBucket_length (fits d (.head _)) (len d (.head _))
    rw [setBuckets, List.foldl_cons]
    refine (ih (fun d' hd' => ?_)
      (fun d' hd' => len d' (.tail _ hd')) fun d' hd' => off d' (.tail _ hd')).trans
      (bucketAt_setBucket_ne (fits d (.head _)) (len d (.head _)) (off d (.head _)))
    rw [step]
    exact fits d' (.tail _ hd')

theorem bucketAt_setBuckets (fits : ∀ d ∈ ds, node d * Z + Z ≤ mem.length)
    (len : ∀ d ∈ ds, (src d).length = Z) (nodup : (ds.map node).Nodup) {d : ι} (hd : d ∈ ds) :
    bucketAt Z (setBuckets Z node src ds mem) (node d) = src d := by
  induction ds generalizing mem with
  | nil => simp at hd
  | cons e ds ih =>
    have step := setBucket_length (fits e (.head _)) (len e (.head _))
    have fits' : ∀ d ∈ ds, node d * Z + Z ≤ (setBucket Z mem (node e) (src e)).length :=
      fun d' hd' => step ▸ fits d' (.tail _ hd')
    rw [List.map_cons, List.nodup_cons] at nodup
    rw [setBuckets, List.foldl_cons]
    rcases List.mem_cons.mp hd with rfl | hd
    · refine (bucketAt_setBuckets_ne fits' (fun d' hd' => len d' (.tail _ hd')) fun d' hd' same =>
        nodup.1 (List.mem_map.mpr ⟨d', hd', same.symm⟩)).trans ?_
      exact bucketAt_setBucket_self (fits _ (.head _)) (len _ (.head _))
    · exact ih fits' (fun d' hd' => len d' (.tail _ hd')) nodup.2 hd

end Buckets

section Map
variable {T' : Type} (f : T → T') (Z : Nat)

theorem bucketAt_map (mem : List T) (i : Nat) : bucketAt Z (mem.map f) i = (bucketAt Z mem i).map f := by
  rw [bucketAt, bucketAt, List.map_take, List.map_drop]

theorem setBucket_map (mem : List T) (i : Nat) (xs : List T) :
    setBucket Z (mem.map f) i (xs.map f) = (setBucket Z mem i xs).map f := by
  rw [setBucket, setBucket, List.map_append, List.map_append, List.map_take, List.map_drop]

theorem setBuckets_map {ι : Type} (node : ι → Nat) (src : ι → List T) (ds : List ι) (mem : List T) :
    setBuckets Z node (fun d => (src d).map f) ds (mem.map f) = (setBuckets Z node src ds mem).map f := by
  induction ds generalizing mem with
  | nil => rfl
  | cons d ds ih =>
    rw [setBuckets, List.foldl_cons, setBucket_map]
    exact ih _

end Map
end Roga
