import Roga.Network.Wires

/-! Batcher's odd-even merge of two strided runs on Boolean wires, the first at
least as long as the second and both of power-of-two length. -/
namespace Roga.Network

/-- Wire `k` of a run of `len` wires from `first`, continued from `second`. -/
def concat (first len second stride k : Nat) : Nat :=
  if k < len then first + k * stride else second + (k - len) * stride

def merge (first len second len' stride : Nat) (w : Wires) : Wires :=
  if len = 0 ∨ len' = 0 then w
  else if len = 1 ∧ len' = 1 then exchange first second w
  else
    let w := merge first ((len + 1) / 2) second ((len' + 1) / 2) (stride * 2) w
    let w := merge (first + stride) (len / 2) (second + stride) (len' / 2) (stride * 2) w
    layer (fun i => concat (first + stride) (len / 2) (second + stride) (stride * 2) i)
      (fun i => concat first ((len + 1) / 2) second (stride * 2) (i + 1))
      (List.range (min (len / 2 + len' / 2) ((len + 1) / 2 + (len' + 1) / 2 - 1))) w
  termination_by len + len'
  decreasing_by all_goals omega

theorem concat_lt {first len second stride k k' : Nat} (pos : 0 < stride)
    (apart : first + len * stride ≤ second) (h : k < k') :
    concat first len second stride k < concat first len second stride k' := by
  unfold concat
  split
  · have below : k * stride < len * stride := Nat.mul_lt_mul_of_pos_right ‹_› pos
    split
    · exact Nat.add_lt_add_left (Nat.mul_lt_mul_of_pos_right h pos) _
    · omega
  · rw [if_neg (by omega)]
    exact Nat.add_lt_add_left (Nat.mul_lt_mul_of_pos_right (by omega) pos) _

theorem concat_inj {first len second stride k k' : Nat} (pos : 0 < stride)
    (apart : first + len * stride ≤ second)
    (h : concat first len second stride k = concat first len second stride k') : k = k' := by
  rcases Nat.lt_trichotomy k k' with lt | rfl | lt
  · exact absurd h (concat_lt pos apart lt).ne
  · rfl
  · exact absurd h (concat_lt pos apart lt).ne'

/-- The odd positions of a run of `2 * m` wires and its continuation. -/
theorem concat_odd (first m second stride k : Nat) :
    concat first m second (stride * 2) k = concat first (2 * m) second stride (2 * k) := by
  unfold concat
  by_cases h : k < m
  · rw [if_pos h, if_pos (by omega)]
    ring
  · rw [if_neg h, if_neg (by omega), ← Nat.mul_sub]
    ring

theorem concat_even (first m second stride k : Nat) :
    concat (first + stride) m (second + stride) (stride * 2) k =
      concat first (2 * m) second stride (2 * k + 1) := by
  unfold concat
  by_cases h : k < m
  · rw [if_pos h, if_pos (by omega)]
    ring
  · rw [if_neg h, if_neg (by omega), show 2 * k + 1 - 2 * m = 2 * (k - m) + 1 by omega]
    ring

/-- What a merge of runs with `a` and `b` zeros leaves behind. -/
structure Merged (first len second len' stride a b : Nat) (w w' : Wires) : Prop where
  ordered : ∀ k < len + len', w' (concat first len second stride k) = decide (a + b ≤ k)
  frame : ∀ m, (∀ k < len + len', m ≠ concat first len second stride k) → w' m = w m

/-- An empty second run leaves the first as it is. -/
theorem Merged.of_empty {first len second stride a : Nat} {w : Wires}
    (zeros : ∀ k < len, w (first + k * stride) = decide (a ≤ k)) : Merged first len second 0 stride a 0 w w := by
  constructor
  · intro k hk
    rw [concat, if_pos (by omega), zeros k (by omega)]
    rfl
  · intro m _
    rfl

/-- Two single wires are merged by one comparator. -/
theorem Merged.of_pair {first second stride a b : Nat} {w : Wires} (ha : a ≤ 1) (hb : b ≤ 1)
    (zero : w first = decide (a ≤ 0)) (zero' : w second = decide (b ≤ 0)) (apart : first < second) :
    Merged first 1 second 1 stride a b w (exchange first second w) := by
  constructor
  · intro k hk
    obtain rfl | rfl : k = 0 ∨ k = 1 := by omega
    · simp only [concat, exchange, zero, zero', Nat.zero_lt_one, if_true, Nat.zero_mul, Nat.add_zero,
        ← Bool.decide_and]
      exact decide_eq_decide.mpr (by omega)
    · simp only [concat, exchange, zero, zero', Nat.lt_irrefl, if_false, Nat.sub_self, Nat.zero_mul,
        Nat.add_zero, if_true]
      rw [if_neg apart.ne', ← Bool.decide_or]
      exact decide_eq_decide.mpr (by omega)
  · intro m hm
    have h₀ := hm 0 (by omega)
    have h₁ := hm 1 (by omega)
    simp [concat] at h₀ h₁
    simp [exchange, h₀, h₁]

/-- The halves of a length that is zero or a power of two. -/
theorem halves_of_pow {n : Nat} (pow : n = 0 ∨ ∃ y, n = 2 ^ y) :
    ((n + 1) / 2 = 0 ∨ ∃ y, (n + 1) / 2 = 2 ^ y) ∧ (n / 2 = 0 ∨ ∃ y, n / 2 = 2 ^ y) := by
  obtain rfl | ⟨y, rfl⟩ := pow
  · exact ⟨Or.inl rfl, Or.inl rfl⟩
  · cases y with
    | zero => exact ⟨Or.inr ⟨0, rfl⟩, Or.inl rfl⟩
    | succ y =>
      rw [Nat.pow_succ]
      exact ⟨Or.inr ⟨y, by omega⟩, Or.inr ⟨y, by omega⟩⟩

/-- The last layer compares neighbours `2i+1` and `2i+2` of the concatenation. It finishes a
merge whose odd and even positions are merged already. -/
theorem Merged.of_halves {first m second len' stride a b : Nat} {w w' : Wires} (pos : 0 < stride)
    (apart : first + 2 * m * stride ≤ second) (some : 0 < m) (ha : a ≤ 2 * m)
    (hb : b ≤ len')
    (odds : ∀ k < m + (len' + 1) / 2, w' (concat first (2 * m) second stride (2 * k)) =
      decide ((a + 1) / 2 + (b + 1) / 2 ≤ k))
    (evens : ∀ k < m + len' / 2, w' (concat first (2 * m) second stride (2 * k + 1)) = decide (a / 2 + b / 2 ≤ k))
    (outside : ∀ j, (∀ k < 2 * m + len', j ≠ concat first (2 * m) second stride k) → w' j = w j) :
    Merged first (2 * m) second len' stride a b w
      (layer (fun i => concat first (2 * m) second stride (2 * i + 1))
        (fun i => concat first (2 * m) second stride (2 * (i + 1)))
        (List.range (min (m + len' / 2) (m + (len' + 1) / 2 - 1))) w') := by
  generalize hc : min (m + len' / 2) (m + (len' + 1) / 2 - 1) = count
  have differ : ∀ k k', k ≠ k' → concat first (2 * m) second stride k ≠ concat first (2 * m) second stride k' :=
    fun k k' other same => other (concat_inj pos apart same)
  have comparators := fun i (hi : i < count) => layer_at
    (a := fun i => concat first (2 * m) second stride (2 * i + 1))
    (b := fun i => concat first (2 * m) second stride (2 * (i + 1)))
    (List.nodup_range (n := count))
    (fun i _ j _ => differ _ _ (by omega))
    (fun i _ j _ h => by have := concat_inj pos apart h; omega)
    (fun i _ j _ h => by have := concat_inj pos apart h; omega) (List.mem_range.mpr hi) w'
  constructor
  · intro k hk
    obtain ⟨i, rfl | rfl⟩ : ∃ i, k = 2 * i + 1 ∨ k = 2 * i := ⟨k / 2, by omega⟩
    · by_cases hi : i < count
      · rw [(comparators i hi).1, evens i (by omega), odds (i + 1) (by omega), ← Bool.decide_and]
        exact decide_eq_decide.mpr (by omega)
      · rw [layer_frame fun i' hi' => ?_, evens i (by omega)]
        · exact decide_eq_decide.mpr (by omega)
        · have inside := List.mem_range.mp hi'
          exact ⟨differ _ _ (by omega), differ _ _ (by omega)⟩
    · cases i with
      | zero =>
        rw [layer_frame fun i' _ => ⟨differ _ _ (by omega), differ _ _ (by omega)⟩, odds 0 (by omega)]
        exact decide_eq_decide.mpr (by omega)
      | succ i =>
        rw [(comparators i (by omega)).2, evens i (by omega), odds (i + 1) (by omega), ← Bool.decide_or]
        exact decide_eq_decide.mpr (by omega)
  · intro j hj
    rw [layer_frame fun i hi => ?_, outside j hj]
    have inside := List.mem_range.mp hi
    exact ⟨hj (2 * i + 1) (by omega), hj (2 * (i + 1)) (by omega)⟩

theorem merge_spec {x first second len' stride a b : Nat} {w : Wires} (pos : 0 < stride)
    (apart : first + 2 ^ x * stride ≤ second) (short : len' ≤ 2 ^ x)
    (pow : len' = 0 ∨ ∃ y, len' = 2 ^ y) (ha : a ≤ 2 ^ x) (hb : b ≤ len')
    (zeros : ∀ k < 2 ^ x, w (first + k * stride) = decide (a ≤ k))
    (zeros' : ∀ k < len', w (second + k * stride) = decide (b ≤ k)) :
    Merged first (2 ^ x) second len' stride a b w (merge first (2 ^ x) second len' stride w) := by
  induction x generalizing first second len' stride a b w with
  | zero =>
    rw [merge]
    by_cases none : len' = 0
    · subst none
      obtain rfl := Nat.le_zero.mp hb
      rw [if_pos (Or.inr rfl)]
      exact .of_empty zeros
    · obtain rfl : len' = 1 := by omega
      have zero := zeros 0 (by decide)
      have zero' := zeros' 0 (by decide)
      simp only [Nat.zero_mul, Nat.add_zero] at zero zero'
      rw [if_neg (by decide), if_pos (by decide)]
      exact .of_pair ha hb zero zero' (by omega)
  | succ x ih =>
    have two : 2 ^ (x + 1) = 2 * 2 ^ x := Nat.pow_succ'
    rw [two] at apart short ha zeros ⊢
    have mpos : 0 < 2 ^ x := Nat.two_pow_pos x
    clear two
    generalize 2 ^ x = m at *
    rw [merge]
    by_cases none : len' = 0
    · subst none
      obtain rfl := Nat.le_zero.mp hb
      rw [if_pos (Or.inr rfl)]
      exact .of_empty zeros
    rw [if_neg (by omega), if_neg (by omega)]
    have halves : (2 * m + 1) / 2 = m ∧ 2 * m / 2 = m := by omega
    simp only [halves.1, halves.2]
    obtain ⟨upper, lower⟩ := halves_of_pow pow
    have double : m * (stride * 2) = 2 * m * stride := by ring
    have skip : ∀ k, k * (stride * 2) = 2 * k * stride := fun k => by ring
    -- the odd positions of both runs
    have odd := @ih first second ((len' + 1) / 2) (stride * 2) ((a + 1) / 2) ((b + 1) / 2) w (by omega)
      (by rw [double]; exact apart) (by omega) upper (by omega) (by omega)
      (fun k hk => by
        rw [skip, zeros (2 * k) (by omega)]
        exact decide_eq_decide.mpr (by omega))
      (fun k hk => by
        rw [skip, zeros' (2 * k) (by omega)]
        exact decide_eq_decide.mpr (by omega))
    generalize merge first m second ((len' + 1) / 2) (stride * 2) w = w₁ at odd ⊢
    have untouched : ∀ k, w₁ (concat first (2 * m) second stride (2 * k + 1)) =
        w (concat first (2 * m) second stride (2 * k + 1)) := fun k => odd.frame _ fun j _ h => by
      rw [concat_odd] at h
      have := concat_inj pos apart h
      omega
    have evenAt : ∀ start k, start + stride + k * (stride * 2) = start + (2 * k + 1) * stride :=
      fun start k => by ring
    -- the even positions, which the first merge left alone
    have even := @ih (first + stride) (second + stride) (len' / 2) (stride * 2) (a / 2) (b / 2) w₁ (by omega)
      (by rw [double]; omega) (by omega) lower (by omega) (by omega)
      (fun k hk => by
        have keep := untouched k
        rw [concat, if_pos (by omega)] at keep
        rw [evenAt, keep, zeros (2 * k + 1) (by omega)]
        exact decide_eq_decide.mpr (by omega))
      (fun k hk => by
        have keep := untouched (m + k)
        have index : 2 * (m + k) + 1 - 2 * m = 2 * k + 1 := by omega
        rw [concat, if_neg (by omega), index] at keep
        rw [evenAt, keep, zeros' (2 * k + 1) (by omega)]
        exact decide_eq_decide.mpr (by omega))
    generalize merge (first + stride) m (second + stride) (len' / 2) (stride * 2) w₁ = w₂ at even ⊢
    have odds : ∀ k < m + (len' + 1) / 2, w₂ (concat first (2 * m) second stride (2 * k)) =
        decide ((a + 1) / 2 + (b + 1) / 2 ≤ k) := fun k hk => by
      rw [even.frame _ fun j _ h => ?_, ← concat_odd, odd.ordered k hk]
      rw [concat_even] at h
      have := concat_inj pos apart h
      omega
    have evens : ∀ k < m + len' / 2, w₂ (concat first (2 * m) second stride (2 * k + 1)) =
        decide (a / 2 + b / 2 ≤ k) := fun k hk => by
      rw [← concat_even, even.ordered k hk]
    have outside : ∀ j, (∀ k < 2 * m + len', j ≠ concat first (2 * m) second stride k) →
        w₂ j = w j := fun j hj => by
      rw [even.frame _ fun k hk h => hj (2 * k + 1) (by omega) (by rw [h, concat_even]),
        odd.frame _ fun k hk h => hj (2 * k) (by omega) (by rw [h, concat_odd])]
    simp only [concat_even]
    simp only [concat_odd]
    exact .of_halves pos apart mpos ha hb odds evens outside

end Roga.Network
