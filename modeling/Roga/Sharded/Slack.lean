import Roga.Sharded.Histogram
import Roga.Sharded.Overflow

/-! The deflated target of the shards. As keys with random tags arrive one by one, the coordinator
reaches its target before the total target is there, and until then no shard is past
its share by more than the slack. -/
namespace Roga
open Trials
variable {d : Nat}

/-- The keys in a shard when the first `t` keys have arrived. -/
def shardLoad (m s t : Nat) (tags : Fin d → UInt64) : Nat :=
  hits (fun tag => decide (shardIndexForTag tag m = s)) (Finset.univ.filter fun i : Fin d => i.1 < t) tags

theorem shardLoad_mono (m s : Nat) (tags : Fin d → UInt64) : Monotone fun t => shardLoad m s t tags := by
  intro t t' later
  simp only [shardLoad, hits]
  apply Finset.card_le_card
  intro i hi
  rw [Finset.mem_filter, Finset.mem_filter] at hi ⊢
  exact ⟨⟨hi.1.1, hi.1.2.trans_le later⟩, hi.2⟩

/-- All shards are this near to an equal share. -/
def Balanced (m c upper lower : Nat) (tags : Fin d → UInt64) : Prop :=
  ∀ s < m, shardLoad m s (c * m) tags ≤ c + upper ∧ c - lower ≤ shardLoad m s (c * m) tags

/-- Keys that would fill every shard to its share spread evenly, up to the slack. -/
theorem prob_not_balanced {k : Nat} (few : k ≤ 32) (many : 1 ≤ k) {c : Nat} (there : c * 2 ^ k ≤ d) {bits : Nat}
    (fits : bits ≤ 2 ^ 31) :
    ∃ upper lower, shardCoordinationSlack c (2 ^ k) bits = upper + lower ∧
      Tape.prob (fun tags : Fin d → UInt64 => ¬ Balanced (2 ^ k) c upper lower tags) ≤
        tailError (c * 2 ^ k) * (2 : ℝ) ^ (-(bits : ℤ)) := by
  have shards : 2 ≤ 2 ^ k := Nat.le_self_pow (by omega) 2
  obtain ⟨upper, lower, split, above, below⟩ := shardCoordinationSlack_spec shards c fits
  refine ⟨upper, lower, split, ?_⟩
  have size : (Finset.univ.filter fun i : Fin d => i.1 < c * 2 ^ k).card = c * 2 ^ k := by
    rw [Fin.card_filter_val_lt, min_eq_right there]
  have high : ∀ s < 2 ^ k, Tape.prob (fun tags : Fin d → UInt64 => c + upper + 1 ≤ shardLoad (2 ^ k) s (c * 2 ^ k) tags) ≤
      Binomial.upperTail (c * 2 ^ k) (1 / ((2 ^ k : Nat) : ℝ)) (c + upper + 1) := by
    intro s hs
    rw [← rate_shardIndexForTag few hs]
    exact prob_hits_ge_le size.le _
  have low : ∀ s < 2 ^ k, Tape.prob (fun tags : Fin d → UInt64 => shardLoad (2 ^ k) s (c * 2 ^ k) tags < c - lower) ≤
      ∑ j ∈ Finset.range (c - lower), Binomial.term (c * 2 ^ k) (1 / ((2 ^ k : Nat) : ℝ)) j := by
    intro s hs
    have tail := @prob_hits_lt UInt64 d _ _ (fun tag => decide (shardIndexForTag tag (2 ^ k) = s))
      (Finset.univ.filter fun i => i.1 < c * 2 ^ k) (c - lower)
    rwa [rate_shardIndexForTag few hs, size] at tail
  calc Tape.prob (fun tags : Fin d → UInt64 => ¬ Balanced (2 ^ k) c upper lower tags)
      ≤ Tape.prob (fun tags : Fin d → UInt64 => ∃ s < 2 ^ k, c + upper + 1 ≤ shardLoad (2 ^ k) s (c * 2 ^ k) tags) +
        Tape.prob (fun tags : Fin d → UInt64 => ∃ s < 2 ^ k, shardLoad (2 ^ k) s (c * 2 ^ k) tags < c - lower) := by
        refine Tape.prob_or_le fun tags apart => ?_
        by_contra none
        rw [not_or] at none
        refine apart fun s hs => ⟨?_, ?_⟩
        · exact Nat.le_of_not_lt fun more => none.1 ⟨s, hs, more⟩
        · exact Nat.le_of_not_lt fun less => none.2 ⟨s, hs, less⟩
    _ ≤ tailError (c * 2 ^ k) * (2 : ℝ) ^ (-(bits : ℤ)) / 2 + tailError (c * 2 ^ k) * (2 : ℝ) ^ (-(bits : ℤ)) / 2 :=
      add_le_add ((Tape.prob_exists_le _ _ high).trans above) ((Tape.prob_exists_le _ _ low).trans below)
    _ = tailError (c * 2 ^ k) * (2 : ℝ) ^ (-(bits : ℤ)) := add_halves _

/-- A deflated target past its least value leaves room for the slack. -/
theorem effective_deflated_le {slack : Nat → Nat → Nat → Nat} {Z total m : Nat}
    (deflated : deflatedPerShardResizeTarget slack Z total m ≠ 1) :
    effectiveTCapacity Z (deflatedPerShardResizeTarget slack Z total m) ≤
      effectiveTCapacity Z total / m - slack (effectiveTCapacity Z total / m) m 80 := by
  have unfolded : deflatedPerShardResizeTarget slack Z total m = max ((effectiveTCapacity Z total / m -
    slack (effectiveTCapacity Z total / m) m 80) / max (Z / 4) 1) 1 := rfl
  rw [unfolded] at deflated ⊢
  rcases le_total ((effectiveTCapacity Z total / m - slack (effectiveTCapacity Z total / m) m 80) / max (Z / 4) 1) 1
    with least | more
  · exact absurd (max_eq_right least) deflated
  · rw [max_eq_left more]
    exact (min_le_left _ _).trans (Nat.div_mul_le_self _ _)

/-- While the coordinator is below its lower bound the keys are not all there, so no shard is past its upper bound. -/
theorem Balanced.before {m c upper lower : Nat} {tags : Fin d → UInt64} (balanced : Balanced m c upper lower tags)
    (some : 0 < m) {t : Nat} (below : shardLoad m 0 t tags < c - lower) :
    t < c * m ∧ ∀ s < m, shardLoad m s t tags ≤ c + upper := by
  have early : t < c * m := by
    by_contra late
    have grown := shardLoad_mono m 0 tags (Nat.le_of_not_lt late)
    exact absurd (balanced 0 some).2 (Nat.not_le.mpr (grown.trans_lt below))
  exact ⟨early, fun s hs => (shardLoad_mono m s tags early.le).trans (balanced s hs).1⟩

/-- With the slack of the solver the shards fill together: when keys for every shard's share are there, no shard is ahead
of another by more than the slack, and a coordinator below its deflated target has not yet seen that many keys and
no shard is past its share by more than the slack, except with the promised probability. -/
theorem shards_fill_together {k : Nat} (few : k ≤ 32) (many : 1 ≤ k) (Z total : Nat)
    (there : effectiveTCapacity Z total / 2 ^ k * 2 ^ k ≤ d) :
    let c := effectiveTCapacity Z total / 2 ^ k
    let slack := shardCoordinationSlack c (2 ^ k) 80
    let target := deflatedPerShardResizeTarget shardCoordinationSlack Z total (2 ^ k)
    let bound := tailError (c * 2 ^ k) * (2 : ℝ) ^ (-(80 : ℤ))
    Tape.prob (fun tags : Fin d → UInt64 => ∃ s < 2 ^ k, ∃ s' < 2 ^ k,
        shardLoad (2 ^ k) s' (c * 2 ^ k) tags + slack < shardLoad (2 ^ k) s (c * 2 ^ k) tags) ≤ bound ∧
      (target = 1 ∨ Tape.prob (fun tags : Fin d → UInt64 => ∃ t, shardLoad (2 ^ k) 0 t tags < effectiveTCapacity Z target ∧
        (c * 2 ^ k ≤ t ∨ ∃ s < 2 ^ k, c + slack < shardLoad (2 ^ k) s t tags)) ≤ bound) := by
  intro c slack target bound
  obtain ⟨upper, lower, split, rare⟩ := prob_not_balanced few many there (show 80 ≤ 2 ^ 31 by decide)
  have split : slack = upper + lower := split
  refine ⟨(Tape.prob_mono fun tags apart balanced => ?_).trans rare, or_iff_not_imp_left.mpr fun deflated =>
    (Tape.prob_mono fun tags late balanced => ?_).trans rare⟩
  · obtain ⟨s, hs, s', hs', ahead⟩ := apart
    have most : shardLoad (2 ^ k) s (c * 2 ^ k) tags ≤ c + upper := (balanced s hs).1
    have least : c - lower ≤ shardLoad (2 ^ k) s' (c * 2 ^ k) tags := (balanced s' hs').2
    omega
  · obtain ⟨t, below, reached⟩ := late
    have room : effectiveTCapacity Z target ≤ c - slack := effective_deflated_le deflated
    obtain ⟨early, each⟩ := balanced.before (Nat.two_pow_pos k) (show shardLoad (2 ^ k) 0 t tags < c - lower by omega)
    rcases reached with all | ⟨s, hs, past⟩
    · exact absurd early (Nat.not_lt.mpr all)
    · have most := each s hs
      omega

theorem powers_512 : 2 * 2 ^ 512 * 2 ^ 82 ≤ (3 : ℝ) ^ 383 := by
  have powers : 2 * 2 ^ 512 * 2 ^ 82 ≤ 3 ^ 383 := by decide +kernel
  exact_mod_cast powers

theorem binomSf_512_le {j : Nat} (far : 383 ≤ j) : binomSf 512 j (1 / 2) ≤ 1 / 2 ^ 82 := by
  have grows : (3 : ℝ) ^ 383 ≤ 3 ^ j := pow_le_pow_right₀ (by norm_num) far
  have pos : (0 : ℝ) < 3 ^ j := by positivity
  rw [le_div_iff₀ (by positivity)]
  refine le_of_mul_le_mul_right ?_ pos
  calc binomSf 512 j (1 / 2) * 2 ^ 82 * 3 ^ j = binomSf 512 j (1 / 2) * 3 ^ j * 2 ^ 82 := mul_right_comm _ _ _
    _ ≤ 2 * 2 ^ 512 * 2 ^ 82 := mul_le_mul_of_nonneg_right (binomSf_half_le 512 j) (by positivity)
    _ ≤ 3 ^ j := powers_512.trans grows
    _ = 1 * 3 ^ j := (one_mul _).symm

theorem binomLowerTail_512_le {k : Nat} (few : k ≤ 129) : binomLowerTail 512 k (1 / 2) ≤ 1 / 2 ^ 82 := by
  have grows : (3 : ℝ) ^ k ≤ 3 ^ 129 := pow_le_pow_right₀ (by norm_num) few
  have pos : (0 : ℝ) < 3 ^ 512 := by positivity
  rw [le_div_iff₀ (by positivity)]
  refine le_of_mul_le_mul_right ?_ pos
  calc binomLowerTail 512 k (1 / 2) * 2 ^ 82 * 3 ^ 512 = binomLowerTail 512 k (1 / 2) * 3 ^ 512 * 2 ^ 82 :=
        mul_right_comm _ _ _
    _ ≤ 2 * 2 ^ 512 * 3 ^ k * 2 ^ 82 := mul_le_mul_of_nonneg_right (binomLowerTail_half_le (by omega)) (by positivity)
    _ ≤ 2 * 2 ^ 512 * 3 ^ 129 * 2 ^ 82 := by gcongr
    _ = 2 * 2 ^ 512 * 2 ^ 82 * 3 ^ 129 := mul_right_comm _ _ _
    _ ≤ 3 ^ 383 * 3 ^ 129 := mul_le_mul_of_nonneg_right powers_512 (by positivity)
    _ = 1 * 3 ^ 512 := by rw [one_mul, ← pow_add]

/-- For two shards with 256 keys each the slack is below the share. -/
theorem slack_of_256 : shardCoordinationSlack 256 (2 ^ 1) 80 ≤ 254 := by
  have target : (2 : ℝ) ^ (-Int32.ofNat 80).toInt * (1 / 2) / 2 = 1 / 2 ^ 82 := by
    rw [Ct.toInt_neg_ofNat (by decide)]
    norm_num
  have shards : (1 / ((2 ^ 1 : Nat) : ℝ)) = 1 / 2 := by norm_num
  have above := @bisect_le (fun mid => binomSf 512 mid (1 / 2) ≤ 1 / 2 ^ 82) _ 256 512 383 (by decide) fun _ =>
    binomSf_512_le
  have below := @bisect_le (fun mid => binomLowerTail 512 (256 - mid) (1 / 2) ≤ 1 / 2 ^ 82) _ 0 256 127 (by decide)
    fun j _ => binomLowerTail_512_le (show 256 - j ≤ 129 by omega)
  have unfolded : shardCoordinationSlack 256 (2 ^ 1) 80 = (bisect (fun mid => binomSf 512 mid (1 / 2) ≤ 1 / 2 ^ 82) 256 512 -
      256) + bisect (fun mid => binomLowerTail 512 (256 - mid) (1 / 2) ≤ 1 / 2 ^ 82) 0 256 := by
    simp only [shardCoordinationSlack, if_neg (show ¬ 2 ^ 1 ≤ 1 by decide), shards, target, show 256 * 2 ^ 1 = 512 from rfl]
  omega

/-- A share that the slack leaves room in, so that the event of each part is possible. -/
theorem shards_fill_together_512 :
    let slack := shardCoordinationSlack 256 (2 ^ 1) 80
    let target := deflatedPerShardResizeTarget shardCoordinationSlack 4 512 (2 ^ 1)
    slack ≤ 254 ∧ Tape.prob (fun tags : Fin 512 → UInt64 => ∃ s < 2 ^ 1, ∃ s' < 2 ^ 1,
        shardLoad (2 ^ 1) s' 512 tags + slack < shardLoad (2 ^ 1) s 512 tags) ≤ tailError 512 * (2 : ℝ) ^ (-(80 : ℤ)) ∧
      Tape.prob (fun tags : Fin 512 → UInt64 => ∃ t, shardLoad (2 ^ 1) 0 t tags < effectiveTCapacity 4 target ∧
        (512 ≤ t ∨ ∃ s < 2 ^ 1, 256 + slack < shardLoad (2 ^ 1) s t tags)) ≤ tailError 512 * (2 : ℝ) ^ (-(80 : ℤ)) := by
  intro slack target
  have share : effectiveTCapacity 4 512 = 512 := by decide
  have room : slack ≤ 254 := slack_of_256
  have deflated : target ≠ 1 := by
    have unfolded : target = max ((256 - slack) / 1) 1 := by
      simp only [target, slack, deflatedPerShardResizeTarget, show max (4 / 4) 1 = 1 from rfl,
        show saturatingMul 512 1 / 2 ^ 1 = 256 by decide]
    omega
  have both := @shards_fill_together 512 1 (by decide) (by decide) 4 512 (by decide)
  simp only [share] at both
  exact ⟨room, both.1, both.2.resolve_left deflated⟩

end Roga
