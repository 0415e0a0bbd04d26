import Roga.Network.Wires

/-! Batcher's merge exchange on Boolean wires, for any number of wires. The
cascade order (all comparators of one wire before the next wire's) is brought
to layer order by interchange; the layers halve the surplus of the even wires
of every residue class until the class is sorted. -/
namespace Roga.Network

/-- `q, q/2, q/4, ...` while larger than `p`. -/
def descend (p q : Nat) : List Nat :=
  if p < q then q :: descend p (q / 2) else []
  termination_by q
  decreasing_by exact Nat.div_lt_self (by omega) (by decide)

/-- Indices with an even quotient by `p`: the lower wires of a pass. -/
def lower (p n : Nat) : List Nat := (List.range n).filter fun j => j / p % 2 = 0

/-- The first of `q, q/2, q/4, ...` that keeps `j + q` below `n`. -/
def reach (n j q : Nat) : Nat :=
  if q = 0 ∨ j + q < n then q else reach n j (q / 2)
  termination_by q
  decreasing_by exact Nat.div_lt_self (by omega) (by decide)

def cascade (j p q : Nat) (w : Wires) : Wires :=
  (descend p q).foldl (fun w r => exchange (j + p) (j + r) w) w

def pass (n top p : Nat) (w : Wires) : Wires :=
  (lower p n).foldl (fun w j => cascade j p top w)
    ((lower p n).foldl (fun w j => exchange j (j + p) w) w)

def StrideSorted (p : Nat) (w : Wires) : Prop := ∀ k, w k = true → w (k + p) = true

theorem descend_of_le {p q : Nat} (h : q ≤ p) : descend p q = [] := by
  rw [descend, if_neg (by omega)]

theorem descend_succ {p : Nat} (hp : 0 < p) (e : Nat) :
    descend p (p * 2 ^ (e + 1)) = p * 2 ^ (e + 1) :: descend p (p * 2 ^ e) := by
  have grow : p < p * 2 ^ (e + 1) := by
    have := Nat.one_lt_two_pow (n := e + 1) (by omega)
    exact (Nat.lt_mul_iff_one_lt_right hp).mpr this
  rw [descend, if_pos grow, show p * 2 ^ (e + 1) / 2 = p * 2 ^ e by
    rw [Nat.pow_succ, ← Nat.mul_assoc]; omega]

theorem mem_lower {p n j : Nat} : j ∈ lower p n ↔ j < n ∧ j / p % 2 = 0 := by
  simp [lower]

theorem lower_nodup (p n : Nat) : (lower p n).Nodup := List.nodup_range.filter _

theorem lower_sorted (p n : Nat) : (lower p n).Pairwise (· < ·) :=
  List.pairwise_lt_range.filter _

theorem mem_descend {p e r : Nat} (hp : 0 < p) (h : r ∈ descend p (p * 2 ^ e)) :
    ∃ d, d < e ∧ r = p * (2 * 2 ^ d) := by
  induction e with
  | zero => simp [descend_of_le] at h
  | succ e ih =>
    rw [descend_succ hp] at h
    rcases List.mem_cons.mp h with rfl | h
    · exact ⟨e, by omega, by rw [Nat.pow_succ, Nat.mul_comm (2 ^ e)]⟩
    · obtain ⟨d, hd, rfl⟩ := ih h
      exact ⟨d, by omega, rfl⟩

theorem descend_sorted {p : Nat} (hp : 0 < p) (e : Nat) :
    (descend p (p * 2 ^ e)).Pairwise (· > ·) := by
  induction e with
  | zero => simp [descend_of_le]
  | succ e ih =>
    rw [descend_succ hp, List.pairwise_cons]
    refine ⟨fun r hr => ?_, ih⟩
    obtain ⟨d, hd, rfl⟩ := mem_descend hp hr
    rw [← Nat.pow_succ']
    exact Nat.mul_lt_mul_of_pos_left (Nat.pow_lt_pow_right (by decide) (by omega)) hp

theorem even_quotient_add {p j c : Nat} (hp : 0 < p) (h : j / p % 2 = 0) :
    (j + p * (2 * c)) / p % 2 = 0 ∧ (j + p) / p % 2 = 1 := by
  rw [Nat.add_mul_div_left _ _ hp, Nat.add_div_right _ hp]
  omega

theorem cascade_padded {n j p q : Nat} {w : Wires} (padded : Padded n w) :
    Padded n (cascade j p q w) := by
  unfold cascade
  induction q using Nat.strong_induction_on generalizing w with
  | _ q ih =>
    rw [descend]
    split
    · rename_i h
      exact ih (q / 2) (Nat.div_lt_self (by omega) (by decide)) (exchange_padded (by omega) padded)
    · exact padded

theorem foldl_padded {n : Nat} {f : Nat → Wires → Wires} (keep : ∀ j v, Padded n v → Padded n (f j v))
    (js : List Nat) {w : Wires} (padded : Padded n w) : Padded n (js.foldl (fun w j => f j w) w) :=
  List.foldlRecOn js _ padded fun v hv j _ => keep j v hv

/-- A comparator whose larger wire is past the end does nothing. -/
theorem exchange_past {n i j : Nat} {w : Wires} (hj : n ≤ j) (padded : Padded n w) :
    exchange i j w = w := by
  funext k
  simp only [exchange, padded j hj, Bool.and_true, Bool.or_true]
  split_ifs with h₁ h₂
  · rw [h₁]
  · rw [h₂, padded j hj]
  · rfl

theorem cascade_reach {n j p q : Nat} {w : Wires} (padded : Padded n w) :
    cascade j p (reach n j q) w = cascade j p q w := by
  induction q using Nat.strong_induction_on with
  | _ q ih =>
    rw [reach]
    split
    · rfl
    · rename_i h
      rw [not_or] at h
      rw [ih (q / 2) (Nat.div_lt_self (by omega) (by decide))]
      conv_rhs => rw [cascade, descend]
      split
      · rw [List.foldl_cons, exchange_past (by omega) padded, cascade]
      · rw [cascade, descend_of_le (by omega)]

theorem cascade_past {n j p d : Nat} {w : Wires} (hp : 0 < p) (hj : n ≤ j + 2 * p)
    (padded : Padded n w) : cascade j p (p * 2 ^ d) w = w := by
  refine List.foldlRecOn (motive := fun v => v = w) _ _ rfl fun v hv r hr => ?_
  obtain ⟨c, -, rfl⟩ := mem_descend hp hr
  have far : p * 2 ≤ p * (2 * 2 ^ c) :=
    Nat.mul_le_mul_left _ (by have := Nat.two_pow_pos c; omega)
  rw [hv, exchange_past (by omega) padded]

theorem layer_padded {n : Nat} {a b : Nat → Nat} {l : List Nat} (hab : ∀ j ∈ l, a j < b j)
    {w : Wires} (padded : Padded n w) : Padded n (layer a b l w) := by
  induction l generalizing w with
  | nil => exact padded
  | cons j js ih =>
    exact ih (fun j' h => hab j' (by simp [h])) (exchange_padded (hab j (by simp)) padded)

theorem quotient_even {p i : Nat} (hi : i < p) (k : Nat) : (i + p * (2 * k)) / p % 2 = 0 := by
  rw [Nat.add_mul_div_left _ _ (by omega), Nat.div_eq_of_lt hi]
  omega

/-! The comparators `j + p` against `j + r`, for `r` a multiple of `2 * p`: the
odd and even wires of a residue class are compared `R` positions apart. -/
section Class
variable {p n i R : Nat} {w : Wires} (hi : i < p)
include hi

theorem layer_class (hR : 0 < R) (padded : Padded n w) (k : Nat) :
    let w' := layer (· + p) (· + p * (2 * R)) (lower p n) w
    w' (i + p * (2 * k) + p) = (w (i + p * (2 * k) + p) && w (i + p * (2 * (k + R)))) ∧
    w' (i + p * (2 * (k + R))) = (w (i + p * (2 * k) + p) || w (i + p * (2 * (k + R)))) := by
  have hp : 0 < p := by omega
  have far : i + p * (2 * (k + R)) = i + p * (2 * k) + p * (2 * R) := by ring
  have wide : p < p * (2 * R) := (Nat.lt_mul_iff_one_lt_right hp).mpr (by omega)
  rw [far]
  by_cases hj : i + p * (2 * k) < n
  · refine layer_at (lower_nodup p n) ?_ ?_ ?_ (mem_lower.mpr ⟨hj, quotient_even hi k⟩) w
    · intro x hx y hy h
      have ex := (even_quotient_add (c := R) hp (mem_lower.mp hx).2).2
      have ey := (even_quotient_add (c := R) hp (mem_lower.mp hy).2).1
      have same : x + p = y + p * (2 * R) := h
      rw [same] at ex
      omega
    · intro x _ y _ h
      exact Nat.add_right_cancel h
    · intro x _ y _ h
      exact Nat.add_right_cancel h
  · have padded' := layer_padded (a := (· + p)) (b := (· + p * (2 * R))) (l := lower p n)
      (fun j _ => by simpa using wide) padded
    simp only
    rw [padded' _ (by omega), padded' _ (by omega), padded (i + p * (2 * k) + p) (by omega),
      padded (i + p * (2 * k) + p * (2 * R)) (by omega)]
    decide

theorem layer_class_low (k : Nat) (hk : k < R) :
    layer (· + p) (· + p * (2 * R)) (lower p n) w (i + p * (2 * k)) = w (i + p * (2 * k)) := by
  have hp : 0 < p := by omega
  apply layer_frame
  intro j hj
  have odd := (even_quotient_add (c := R) hp (mem_lower.mp hj).2).2
  have even := quotient_even hi k
  refine ⟨fun h => ?_, fun h => ?_⟩
  · rw [h] at even
    omega
  · have small : p * (2 * k) + p * 2 ≤ p * (2 * R) := by
      rw [← Nat.mul_add]
      exact Nat.mul_le_mul_left p (by omega)
    omega

theorem layer_first (padded : Padded n w) (k : Nat) :
    let w' := layer id (· + p) (lower p n) w
    w' (i + p * (2 * k)) = (w (i + p * (2 * k)) && w (i + p * (2 * k) + p)) ∧
    w' (i + p * (2 * k) + p) = (w (i + p * (2 * k)) || w (i + p * (2 * k) + p)) := by
  have hp : 0 < p := by omega
  by_cases hj : i + p * (2 * k) < n
  · refine layer_at (lower_nodup p n) ?_ ?_ ?_ (mem_lower.mpr ⟨hj, quotient_even hi k⟩) w
    · intro x hx y hy h
      have ex := (mem_lower.mp hx).2
      have ey := (even_quotient_add (c := 0) hp (mem_lower.mp hy).2).2
      have same : x = y + p := h
      rw [same] at ex
      omega
    · intro x _ y _ h
      exact h
    · intro x _ y _ h
      exact Nat.add_right_cancel h
  · have padded' := layer_padded (a := id) (b := (· + p)) (l := lower p n)
      (fun j _ => by simpa using hp) padded
    simp only
    rw [padded' _ (by omega), padded' _ (by omega), padded (i + p * (2 * k)) (by omega),
      padded (i + p * (2 * k) + p) (by omega)]
    decide

end Class

/-- The even wires of class `i` hold `a` zeros and the odd ones `b`, where the
even surplus is at most `Q`. -/
def Surplus (p i Q a b : Nat) (w : Wires) : Prop :=
  (∀ k, w (i + p * (2 * k)) = decide (a ≤ k)) ∧ (∀ k, w (i + p * (2 * k) + p) = decide (b ≤ k)) ∧
    b ≤ a ∧ a ≤ b + Q

theorem threshold {f : Nat → Bool} (mono : ∀ k, f k = true → f (k + 1) = true) {K : Nat}
    (last : f K = true) : ∃ a, a ≤ K ∧ ∀ k, f k = decide (a ≤ k) := by
  have found : ∃ k, f k = true := ⟨K, last⟩
  have up : ∀ d, f (Nat.find found + d) = true := by
    intro d
    induction d with
    | zero => exact Nat.find_spec found
    | succ d ih => exact mono _ ih
  refine ⟨Nat.find found, Nat.find_min' found last, fun k => ?_⟩
  by_cases h : Nat.find found ≤ k
  · obtain ⟨d, rfl⟩ := Nat.exists_eq_add_of_le h
    simp [up d]
  · have low := Nat.find_min found (by omega : k < Nat.find found)
    simpa [h] using low

theorem surplus_first {p n i Q : Nat} {w : Wires} (hi : i < p) (padded : Padded n w)
    (sorted : StrideSorted (2 * p) w) (short : n ≤ p * (2 * Q)) :
    ∃ a b, Surplus p i Q a b (layer id (· + p) (lower p n) w) := by
  have next : ∀ k, i + p * (2 * (k + 1)) = i + p * (2 * k) + 2 * p := fun k => by ring
  obtain ⟨a, ha, evens⟩ := threshold (f := fun k => w (i + p * (2 * k))) (K := Q)
    (fun k h => by simpa only [next] using sorted _ h) (padded _ (by omega))
  obtain ⟨b, hb, odds⟩ := threshold (f := fun k => w (i + p * (2 * k) + p)) (K := Q)
    (fun k h => by simpa only [next, Nat.add_right_comm] using sorted _ h) (padded _ (by omega))
  refine ⟨max a b, min a b, fun k => ?_, fun k => ?_, by omega, by omega⟩
  · rw [(layer_first hi padded k).1, evens k, odds k, ← Bool.decide_and]
    congr 1
    simp only [max_le_iff]
  · rw [(layer_first hi padded k).2, evens k, odds k, ← Bool.decide_or]
    congr 1
    simp only [min_le_iff]

theorem surplus_layer {p n i R a b : Nat} {w : Wires} (hi : i < p) (hR : 0 < R)
    (padded : Padded n w) (surplus : Surplus p i (2 * R) a b w) :
    ∃ a' b', Surplus p i R a' b' (layer (· + p) (· + p * (2 * R)) (lower p n) w) := by
  obtain ⟨evens, odds, le, bound⟩ := surplus
  refine ⟨min a (b + R), max b (a - R), fun k => ?_, fun k => ?_, by omega, by omega⟩
  · by_cases hk : k < R
    · rw [layer_class_low hi k hk, evens k]
      congr 1
      rw [eq_iff_iff]
      omega
    · obtain ⟨k, rfl⟩ := Nat.exists_eq_add_of_le' (Nat.le_of_not_lt hk)
      rw [(layer_class hi hR padded k).2, odds k, evens (k + R), ← Bool.decide_or]
      congr 1
      rw [eq_iff_iff]
      omega
  · rw [(layer_class hi hR padded k).1, odds k, evens (k + R), ← Bool.decide_and]
    congr 1
    rw [eq_iff_iff]
    omega

/-- The layers `q = p * 2^e, ..., 2 * p` bring the surplus from `2^e` to one. -/
theorem surplus_layers {p n i e a b : Nat} {w : Wires} (hi : i < p) (padded : Padded n w)
    (surplus : Surplus p i (2 ^ e) a b w) :
    ∃ a' b', Surplus p i 1 a' b' ((descend p (p * 2 ^ e)).foldl
      (fun w r => layer (· + p) (· + r) (lower p n) w) w) := by
  induction e generalizing w a b with
  | zero => exact ⟨a, b, by simpa [descend_of_le] using surplus⟩
  | succ e ih =>
    have double : 2 ^ (e + 1) = 2 * 2 ^ e := by rw [Nat.pow_succ, Nat.mul_comm]
    rw [descend_succ (by omega), List.foldl_cons, double]
    rw [double] at surplus
    obtain ⟨a', b', halved⟩ := surplus_layer hi (Nat.two_pow_pos e) padded surplus
    have wide : p < p * (2 * 2 ^ e) :=
      (Nat.lt_mul_iff_one_lt_right (by omega)).mpr (by have := Nat.two_pow_pos e; omega)
    exact ih (layer_padded (fun j _ => by simpa using wide) padded) halved

theorem pass_layers {p n e : Nat} (hp : 0 < p) (w : Wires) :
    pass n (p * 2 ^ e) p w = (descend p (p * 2 ^ e)).foldl
      (fun w r => layer (· + p) (· + r) (lower p n) w) (layer id (· + p) (lower p n) w) := by
  refine foldl_interchange (fun j r => exchange (j + p) (j + r)) _ _ ?_ _
  rw [List.pairwise_iff_forall_sublist]
  intro j j' sub
  have hlt := List.pairwise_iff_forall_sublist.mp (lower_sorted p n) sub
  have hj := mem_lower.mp (sub.subset (by simp : j ∈ [j, j']))
  have hj' := mem_lower.mp (sub.subset (by simp : j' ∈ [j, j']))
  rw [List.pairwise_iff_forall_sublist]
  intro c c' sub' s
  have hcc := List.pairwise_iff_forall_sublist.mp (descend_sorted hp e) sub'
  obtain ⟨d, -, hc⟩ := mem_descend hp (sub'.subset (by simp : c ∈ [c, c']))
  obtain ⟨d', -, hc'⟩ := mem_descend hp (sub'.subset (by simp : c' ∈ [c, c']))
  subst hc hc'
  -- odd wires have an odd quotient by p, the others an even one
  have e₁ := (even_quotient_add (c := 2 ^ d) hp hj'.2)
  have e₂ := (even_quotient_add (c := 2 ^ d') hp hj.2)
  apply exchange_comm
  · omega
  · intro h
    rw [h] at e₁
    omega
  · intro h
    rw [← h] at e₂
    omega
  · omega

theorem pass_sorted {p n e : Nat} {w : Wires} (hp : 0 < p) (padded : Padded n w)
    (sorted : StrideSorted (2 * p) w) (short : n ≤ p * (2 * 2 ^ e)) :
    StrideSorted p (pass n (p * 2 ^ e) p w) := by
  rw [pass_layers hp]
  intro m hm
  have hi := Nat.mod_lt m hp
  obtain ⟨a, b, first⟩ := surplus_first hi padded sorted short
  have padded' := layer_padded (a := id) (b := (· + p)) (l := lower p n)
    (fun j _ => by simpa using hp) padded
  obtain ⟨a', b', evens, odds, le, bound⟩ := surplus_layers hi padded' first
  have hm' : m = m % p + p * (m / p) := (Nat.mod_add_div m p).symm
  obtain ⟨k, hk | hk⟩ : ∃ k, m / p = 2 * k ∨ m / p = 2 * k + 1 := ⟨m / p / 2, by omega⟩
  · rw [hk] at hm'
    rw [hm', evens k] at hm
    rw [hm', odds k]
    simp only [decide_eq_true_eq] at hm ⊢
    omega
  · rw [hk, Nat.mul_add, Nat.mul_one, ← Nat.add_assoc] at hm'
    rw [hm', odds k] at hm
    rw [hm', show m % p + p * (2 * k) + p + p = m % p + p * (2 * (k + 1)) by ring, evens (k + 1)]
    simp only [decide_eq_true_eq] at hm ⊢
    omega

theorem pass_padded {p n top : Nat} {w : Wires} (hp : 0 < p) (padded : Padded n w) :
    Padded n (pass n top p w) :=
  foldl_padded (f := fun j => cascade j p top) (fun _ _ => cascade_padded) _
    (foldl_padded (f := fun j => exchange j (j + p)) (fun _ _ => exchange_padded (by omega)) _ padded)

/-- Merge exchange sorts every Boolean input of up to `2 * 2^t` wires. -/
theorem mergeExchange_sorted {n t : Nat} {w : Wires} (padded : Padded n w) (short : n ≤ 2 * 2 ^ t) :
    StrideSorted 1 ((descend 0 (2 ^ t)).foldl (fun w p => pass n (2 ^ t) p w) w) := by
  have all : ∀ d e w, d + e = t → Padded n w → StrideSorted (2 * 2 ^ d) w →
      StrideSorted 1 ((descend 0 (2 ^ d)).foldl (fun w p => pass n (2 ^ t) p w) w) := by
    intro d
    induction d with
    | zero =>
      intro e w ht padded sorted
      rw [descend, if_pos (by decide), descend_of_le (by decide)]
      have top : 2 ^ t = 1 * 2 ^ e := by rw [← ht]; simp
      simp only [List.foldl_cons, List.foldl_nil, top]
      exact pass_sorted (by decide) padded sorted (by omega)
    | succ d ih =>
      intro e w ht padded sorted
      have pos := Nat.two_pow_pos (d + 1)
      have half : 2 ^ (d + 1) / 2 = 2 ^ d := by rw [Nat.pow_succ]; omega
      rw [descend, if_pos pos, half, List.foldl_cons]
      have top : 2 ^ t = 2 ^ (d + 1) * 2 ^ e := by rw [← ht, Nat.pow_add]
      refine ih (e + 1) _ (by omega) (pass_padded pos padded) ?_
      rw [show 2 * 2 ^ d = 2 ^ (d + 1) by rw [Nat.pow_succ]; omega, top]
      refine pass_sorted pos padded sorted ?_
      rw [Nat.mul_left_comm, ← top]
      exact short
  refine all t 0 w (by omega) padded fun k _ => padded _ (by omega)

end Roga.Network
