import Roga.Oblivious.CompactionProofs
import Roga.Oblivious.Sorting

/-! The oblivious routines move slots without reading them: each commutes with any map
of the slots. -/
namespace Roga
open Ct
variable {T T' : Type} (f : T → T')

theorem cswapFast_map (arr : List T) (i j : Nat) (choice : Bool) :
    cswapFast (arr.map f) i j choice = (cswapFast arr i j choice).map f := by
  simp only [cswapFast, List.getElem?_map]
  cases arr[i]? with
  | none => rfl
  | some a =>
    cases arr[j]? with
    | none => rfl
    | some b =>
      cases choice with
      | false => rfl
      | true => simp only [Option.map_some, if_true, List.map_set]

theorem swapColumns_map (count offset : Nat) (choice : Nat → Bool) (arr : List T) :
    swapColumns count offset choice (arr.map f) = (swapColumns count offset choice arr).map f :=
  List.foldl_rel (r := fun ys xs : List _ => ys = xs.map f) rfl fun _ _ _ _ same =>
    same ▸ cswapFast_map f _ _ _ _

section Compaction

theorem compactPow2_map (arr : List T) (payload : List Nat) (z : Nat) :
    compactPow2 (arr.map f) payload z = (compactPow2 arr payload z).map f := by
  fun_induction compactPow2 arr payload z with
  | case1 arr payload z n short => rw [compactPow2, if_pos (by rwa [List.length_map])]
  | case2 arr payload z n long two =>
    rw [compactPow2, if_neg (by rwa [List.length_map]), if_pos (by rwa [List.length_map]), cswapFast_map]
  | case3 arr payload z n long more half m zleft zright left right s ihl ihr =>
    rw [compactPow2, if_neg (by rwa [List.length_map]), if_neg (by rwa [List.length_map]), ← swapColumns_map,
      List.map_append]
    simp only [List.length_map, ← List.map_take, ← List.map_drop]
    rw [← ihl, ← ihr]

theorem compactPayload_map (arr : List T) (payload : List Nat) :
    compactPayload (arr.map f) payload = (compactPayload arr payload).map f := by
  fun_induction compactPayload arr payload with
  | case1 arr payload n short => rw [compactPayload, if_pos (by rwa [List.length_map])]
  | case2 arr payload n long n1 n2 whole =>
    rw [compactPayload, if_neg (by rwa [List.length_map])]
    simp only [List.length_map]
    rw [if_pos whole, compactPow2_map]
  | case3 arr payload n long n1 n2 rest m left right ih =>
    rw [compactPayload, if_neg (by rwa [List.length_map])]
    simp only [List.length_map, ← List.map_take, ← List.map_drop]
    rw [if_neg rest, ← swapColumns_map, List.map_append, ← ih, ← compactPow2_map]

theorem distributePow2_map (arr : List T) (payload : List Nat) (z : Nat) :
    distributePow2 (arr.map f) payload z = (distributePow2 arr payload z).map f := by
  fun_induction distributePow2 arr payload z with
  | case1 arr payload z n short => rw [distributePow2, if_pos (by rwa [List.length_map])]
  | case2 arr payload z n long two =>
    rw [distributePow2, if_neg (by rwa [List.length_map]), if_pos (by rwa [List.length_map]), cswapFast_map]
  | case3 arr payload z n long more half m zleft zright s swapped ihl ihr =>
    rw [distributePow2, if_neg (by rwa [List.length_map]), if_neg (by rwa [List.length_map]), List.map_append]
    simp only [List.length_map, swapColumns_map, ← List.map_take, ← List.map_drop]
    rw [← ihl, ← ihr]

theorem distributePayload_map (arr : List T) (payload : List Nat) :
    distributePayload (arr.map f) payload = (distributePayload arr payload).map f := by
  fun_induction distributePayload arr payload with
  | case1 arr payload n short => rw [distributePayload, if_pos (by rwa [List.length_map])]
  | case2 arr payload n long n1 n2 whole =>
    rw [distributePayload, if_neg (by rwa [List.length_map])]
    simp only [List.length_map]
    rw [if_pos whole, distributePow2_map]
  | case3 arr payload n long n1 n2 rest m swapped ih =>
    rw [distributePayload, if_neg (by rwa [List.length_map])]
    simp only [List.length_map, swapColumns_map, ← List.map_take, ← List.map_drop]
    rw [if_neg rest, List.map_append, ← ih, ← distributePow2_map]

end Compaction

namespace Djbsort

theorem minmaxWithPayloadRaw_map (i j : Nat) (keys : List UInt64) (payloads : List T) :
    minmaxWithPayloadRaw i j (keys, payloads.map f) =
      Prod.map id (List.map f) (minmaxWithPayloadRaw i j (keys, payloads)) := by
  simp only [minmaxWithPayloadRaw]
  cases keys[i]? with
  | none => rfl
  | some a =>
    cases keys[j]? with
    | none => rfl
    | some b => exact congrArg (Prod.mk _) (cswapFast_map f _ _ _ _)

/-- The registers and the slots of a cascade, the payloads mapped. -/
theorem cascadeWithPayloadLoop_map (j p r : Nat) (aKey : UInt64) (aPay : T) (s : List UInt64 × List T) :
    cascadeWithPayloadLoop j p r aKey (f aPay) (Prod.map id (List.map f) s) =
      Prod.map id (Prod.map f (Prod.map id (List.map f))) (cascadeWithPayloadLoop j p r aKey aPay s) := by
  fun_induction cascadeWithPayloadLoop j p r aKey aPay s with
  | case1 r aKey aPay s more bKey bPay key pay above ih =>
    rw [cascadeWithPayloadLoop, if_pos more]
    simp only [Prod.map_fst, Prod.map_snd, id, List.getElem?_map, key, pay, Option.map_some, if_pos above,
      ← List.map_set]
    exact ih
  | case2 r aKey aPay s more bKey bPay key pay above ih =>
    rw [cascadeWithPayloadLoop, if_pos more]
    simp only [Prod.map_fst, Prod.map_snd, id, List.getElem?_map, key, pay, Option.map_some, if_neg above]
    exact ih
  | case3 r aKey aPay s more out ih =>
    rw [cascadeWithPayloadLoop, if_pos more]
    simp only [Prod.map_fst, Prod.map_snd, id, List.getElem?_map]
    cases key : s.1[j + r]? with
    | none => exact ih
    | some bKey =>
      cases pay : s.2[j + r]? with
      | none => exact ih
      | some bPay => exact absurd pay (out bKey bPay key)
  | case4 r aKey aPay s done =>
    rw [cascadeWithPayloadLoop, if_neg done]
    rfl

theorem cascadeWithPayloadRaw_map (j p q : Nat) (keys : List UInt64) (payloads : List T) :
    cascadeWithPayloadRaw j p q (keys, payloads.map f) =
      Prod.map id (List.map f) (cascadeWithPayloadRaw j p q (keys, payloads)) := by
  simp only [cascadeWithPayloadRaw, List.getElem?_map]
  cases keys[j + p]? with
  | none => rfl
  | some aKey =>
    cases payloads[j + p]? with
    | none => rfl
    | some aPay =>
      have moved := cascadeWithPayloadLoop_map f j p q aKey aPay (keys, payloads)
      simp only [Prod.map_apply, id] at moved
      simp only [Option.map_some, moved]
      exact congrArg (Prod.mk _) List.map_set.symm

/-- The payloads follow the keys, whatever they are. -/
theorem sortWithPayload_map (keys : List UInt64) (payloads : List T) :
    sortWithPayload keys (payloads.map f) = Prod.map id (List.map f) (sortWithPayload keys payloads) := by
  have related : (withPayloadOps (P := T')).Related (fun t s => t = Prod.map id (List.map f) s) withPayloadOps := by
    constructor
    · rintro i j _ ⟨keys, payloads⟩ rfl
      exact minmaxWithPayloadRaw_map f i j keys payloads
    · rintro j p q _ ⟨keys, payloads⟩ rfl
      exact cascadeWithPayloadRaw_map f j p q keys payloads
    · intro s t same
      exact same
  exact network_related related keys.length rfl

end Djbsort
end Roga
