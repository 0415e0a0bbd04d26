import Mathlib.Data.List.GetD
import Roga.Probability.Tape

/-! Noisy comparisons against a noisy threshold. Two mechanisms that answer queries on
nearly the same statistics show nearly the same: a transcript of the one is turned into the
same transcript of the other by more noise in a few draws. -/
namespace Roga.SparseVector
open Finset Tape
variable {α : Type}

/-- What a mechanism does. A marked slot is one that may move the statistics; a renewal
draws a new threshold. -/
inductive Step (α : Type)
  | shown (a : α)
  | slot (marked : Bool)
  | query (statistic : Int) (above : Bool)
  | renew

/-- The step without its statistic. -/
def Step.seen : Step α → Step α
  | .query _ above => .query 0 above
  | step => step

/-- Between two renewals: the statistics agree, they differ by one at most, or the
threshold has been crossed and nothing is asked. -/
inductive Phase
  | level
  | tainted
  | answered
deriving DecidableEq

namespace Phase

def mark : Phase → Bool → Phase
  | .level, true => .tainted
  | phase, _ => phase

def after (phase : Phase) : Step α → Phase
  | .shown _ => phase
  | .slot marked => phase.mark marked
  | .query _ above => if above then .answered else phase
  | .renew => .level

def run (phase : Phase) (steps : List (Step α)) : Phase := steps.foldl after phase

@[simp] theorem after_seen (phase : Phase) (step : Step α) : phase.after step.seen = phase.after step := by
  cases step <;> rfl

@[simp] theorem run_nil (phase : Phase) : phase.run ([] : List (Step α)) = phase := rfl

@[simp] theorem run_cons (phase : Phase) (step : Step α) (steps : List (Step α)) :
    phase.run (step :: steps) = (phase.after step).run steps := rfl

theorem run_append (phase : Phase) (s t : List (Step α)) : phase.run (s ++ t) = (phase.run s).run t :=
  List.foldl_append

theorem mark_answered (phase : Phase) (marked : Bool) : phase.mark marked = .answered ↔ phase = .answered := by
  cases phase <;> cases marked <;> simp [mark]

theorem mark_eq_level {phase : Phase} {marked : Bool} : phase.mark marked = .level ↔ phase = .level ∧ marked = false := by
  cases phase <;> cases marked <;> simp [mark]

theorem run_slots (phase : Phase) (slots : List Bool) :
    phase.run (slots.map fun marked => (.slot marked : Step α)) = phase.mark (slots.any id) := by
  induction slots generalizing phase with
  | nil => cases phase <;> rfl
  | cons marked slots ih =>
    rw [List.map_cons, run_cons, ih, List.any_cons]
    cases marked <;> cases phase <;> cases slots.any id <;> rfl

theorem run_shown (phase : Phase) {steps : List (Step α)} (shown : ∀ e ∈ steps, ∃ a, e = .shown a) :
    phase.run steps = phase := by
  induction steps generalizing phase with
  | nil => rfl
  | cons e steps ih =>
    obtain ⟨a, rfl⟩ := shown e (.head _)
    exact ih phase fun e he => shown e (.tail _ he)

/-- What a phase allows two statistics. -/
def Near : Phase → Int → Int → Prop
  | .level, c, c' => c = c'
  | .tainted, c, c' => c ≤ c' + 1 ∧ c' ≤ c + 1
  | .answered, _, _ => False

theorem Near.symm {phase : Phase} {c c' : Int} (near : phase.Near c c') : phase.Near c' c := by
  cases phase with
  | level => exact Eq.symm near
  | tainted => exact And.symm near
  | answered => exact near.elim

end Phase

/-- Corresponding steps of two mechanisms. -/
def Step.Near (phase : Phase) : Step α → Step α → Prop
  | .shown a, .shown a' => a = a'
  | .slot marked, .slot marked' => marked = marked'
  | .query c _, .query c' _ => phase.Near c c'
  | .renew, .renew => True
  | _, _ => False

theorem Step.Near.symm {phase : Phase} {e e' : Step α} (near : e.Near phase e') : e'.Near phase e := by
  cases e <;> cases e'
  case shown.shown => exact Eq.symm near
  case slot.slot => exact Eq.symm near
  case query.query => exact Phase.Near.symm near
  case renew.renew => trivial
  all_goals exact near.elim

/-- Two transcripts that correspond as long as the answers coincide. -/
def Drift : Phase → List (Step α) → List (Step α) → Prop
  | _, [], [] => True
  | phase, e :: s, e' :: s' => e.Near phase e' ∧ (e.seen = e'.seen → Drift (phase.after e) s s')
  | _, _, _ => False

section Drift
variable {phase : Phase} {s s' t t' : List (Step α)}

theorem Drift.symm (drift : Drift phase s s') : Drift phase s' s := by
  induction s generalizing phase s' with
  | nil =>
    cases s' with
    | nil => trivial
    | cons => exact drift.elim
  | cons e s ih =>
    cases s' with
    | nil => exact drift.elim
    | cons e' s' =>
      refine ⟨drift.1.symm, fun same => ?_⟩
      rw [← Phase.after_seen, same, Phase.after_seen]
      exact ih (drift.2 same.symm)

theorem Drift.append (drift : Drift phase s s')
    (more : s.map Step.seen = s'.map Step.seen → Drift (phase.run s) t t') : Drift phase (s ++ t) (s' ++ t') := by
  induction s generalizing phase s' with
  | nil =>
    cases s' with
    | nil => exact more rfl
    | cons => exact drift.elim
  | cons e s ih =>
    cases s' with
    | nil => exact drift.elim
    | cons e' s' =>
      refine ⟨drift.1, fun same => ih (drift.2 same) fun rest => more ?_⟩
      rw [List.map_cons, List.map_cons, same, rest]

theorem Drift.seen_prefix (drift : Drift phase s s') (all : (s ++ t).map Step.seen = (s' ++ t').map Step.seen) :
    s.map Step.seen = s'.map Step.seen := by
  induction s generalizing phase s' with
  | nil =>
    cases s' with
    | nil => rfl
    | cons => exact drift.elim
  | cons e s ih =>
    cases s' with
    | nil => exact drift.elim
    | cons e' s' =>
      simp only [List.cons_append, List.map_cons, List.cons.injEq] at all
      rw [List.map_cons, List.map_cons, all.1, ih (drift.2 all.1) all.2]

/-- Without queries a transcript corresponds to itself. -/
theorem Drift.refl_of_quiet (quiet : ∀ e ∈ s, ∀ c above, e ≠ .query c above) : Drift phase s s := by
  induction s generalizing phase with
  | nil => trivial
  | cons e s ih =>
    refine ⟨?_, fun _ => ih fun e he => quiet e (.tail _ he)⟩
    cases e with
    | query c above => exact absurd rfl (quiet _ (.head _) c above)
    | shown | slot | renew => exact by trivial

end Drift

/-- The number of draws and of renewals so far, and the current threshold. -/
structure Meter where
  draws : Nat
  renewals : Nat
  threshold : Int

section Meter
variable (base noise : Nat → Int)

/-- A query and a renewal draw noise, the latter for the threshold of the next interval. -/
def Meter.after (m : Meter) : Step α → Meter
  | .query _ _ => { m with draws := m.draws + 1 }
  | .renew => ⟨m.draws + 1, m.renewals + 1, base (m.renewals + 1) + noise m.draws⟩
  | _ => m

def Meter.run (m : Meter) (steps : List (Step α)) : Meter := steps.foldl (Meter.after base noise) m

/-- A query is answered by a noisy comparison. -/
def Step.Fits (m : Meter) : Step α → Prop
  | .query c above => above = true ↔ m.threshold < c + noise m.draws
  | _ => True

/-- A transcript whose answers are those of the noise. -/
def Answers : Meter → List (Step α) → Prop
  | _, [] => True
  | m, e :: s => e.Fits noise m ∧ Answers (m.after base noise e) s

theorem Answers.append {m : Meter} {s t : List (Step α)} (first : Answers base noise m s)
    (second : Answers base noise (m.run base noise s) t) : Answers base noise m (s ++ t) := by
  induction s generalizing m with
  | nil => exact second
  | cons e s ih => exact ⟨first.1, ih first.2 second⟩

/-- Whether a step draws noise. -/
def Step.draws : Step α → Bool
  | .query _ _ => true
  | .renew => true
  | _ => false

variable {base noise}

/-- Steps that draw no noise leave the meter alone. -/
theorem Answers.of_quiet {m : Meter} {s : List (Step α)} (quiet : ∀ e ∈ s, e.draws = false) :
    Answers base noise m s ∧ m.run base noise s = m := by
  induction s with
  | nil => exact ⟨trivial, rfl⟩
  | cons e s ih =>
    obtain ⟨answers, run⟩ := ih fun e he => quiet e (.tail _ he)
    have here := quiet e (.head _)
    cases e with
    | shown | slot => exact ⟨⟨trivial, answers⟩, run⟩
    | query | renew => exact absurd here.symm Bool.false_ne_true

theorem Meter.run_append (m : Meter) (s t : List (Step α)) :
    m.run base noise (s ++ t) = (m.run base noise s).run base noise t := List.foldl_append

/-- Whether a step draws a new threshold. -/
def Step.renews : Step α → Bool
  | .renew => true
  | _ => false

/-- A query compares with the threshold of its interval, and both have a draw of their own. -/
theorem Answers.query {m : Meter} {s u : List (Step α)} {c : Int} {above : Bool}
    (answers : Answers base noise m (s ++ .query c above :: u))
    (threshold : ∃ j < m.draws, m.threshold = base m.renewals + noise j) :
    ∃ j i, j < i ∧ i = m.draws + s.countP Step.draws ∧
      (above = true ↔ base (m.renewals + s.countP Step.renews) + noise j < c + noise i) := by
  induction s generalizing m with
  | nil =>
    obtain ⟨j, earlier, threshold⟩ := threshold
    refine ⟨j, m.draws, earlier, rfl, ?_⟩
    have fits : above = true ↔ m.threshold < c + noise m.draws := answers.1
    rw [fits, threshold]
    rfl
  | cons e s ih =>
    have next : ∃ j < (m.after base noise e).draws,
        (m.after base noise e).threshold = base (m.after base noise e).renewals + noise j := by
      obtain ⟨j, earlier, threshold⟩ := threshold
      cases e with
      | shown | slot => exact ⟨j, earlier, threshold⟩
      | query => exact ⟨j, Nat.lt_succ_of_lt earlier, threshold⟩
      | renew => exact ⟨m.draws, Nat.lt_succ_self _, rfl⟩
    obtain ⟨j, i, before, position, compares⟩ := ih answers.2 next
    have draws : (m.after base noise e).draws + s.countP Step.draws = m.draws + (e :: s).countP Step.draws := by
      rw [List.countP_cons]
      cases e <;> simp [Meter.after, Step.draws] <;> omega
    have renewals : (m.after base noise e).renewals + s.countP Step.renews = m.renewals + (e :: s).countP Step.renews := by
      rw [List.countP_cons]
      cases e <;> simp [Meter.after, Step.renews, Nat.add_assoc, Nat.add_comm]
    rw [draws] at position
    rw [renewals] at compares
    exact ⟨j, i, before, position, compares⟩
variable (base noise)

/-- The first draw is for the threshold of the first interval. -/
def Meter.start : Meter := ⟨1, 0, base 0 + noise 0⟩

end Meter

/-- Whether a marked slot comes before the threshold is crossed. -/
def pending : List (Step α) → Bool
  | .slot true :: _ => true
  | .slot false :: s => pending s
  | .shown _ :: s => pending s
  | .query _ false :: s => pending s
  | _ => false

/-- By how much the threshold of the second mechanism leads. -/
def lead (phase : Phase) (s : List (Step α)) : Nat :=
  match phase with
  | .level => (pending s).toNat
  | .tainted => 1
  | .answered => 0

/-- The additional noise in the draw of a step. -/
def Step.amount (phase : Phase) (rest : List (Step α)) : Step α → List Nat
  | .query _ above => [if above = true ∧ phase = .tainted then 2 else 0]
  | .renew => [lead .level rest]
  | _ => []

/-- The additional noise in the draws of a transcript. -/
def amounts : Phase → List (Step α) → List Nat
  | _, [] => []
  | phase, e :: s => e.amount phase s ++ amounts (phase.after e) s

/-- The number of marked slots. -/
def marks : List (Step α) → Nat
  | [] => 0
  | .slot true :: s => marks s + 1
  | _ :: s => marks s

theorem marks_append (s t : List (Step α)) : marks (s ++ t) = marks s + marks t := by
  induction s with
  | nil => rw [List.nil_append, marks, Nat.zero_add]
  | cons e s ih =>
    rw [List.cons_append]
    match e with
    | .slot true =>
      rw [marks, marks, ih]
      omega
    | .slot false | .shown _ | .query _ _ | .renew => exact ih

section Amounts

theorem pending_seen (s : List (Step α)) : pending (s.map Step.seen) = pending s := by
  induction s with
  | nil => rfl
  | cons e s ih =>
    cases e with
    | shown a => exact ih
    | slot marked =>
      cases marked with
      | true => rfl
      | false => exact ih
    | query c above =>
      cases above with
      | true => rfl
      | false => exact ih
    | renew => rfl

theorem lead_seen (phase : Phase) (s : List (Step α)) : lead phase (s.map Step.seen) = lead phase s := by
  cases phase with
  | level => rw [lead, lead, pending_seen]
  | tainted => rfl
  | answered => rfl

theorem amounts_seen (phase : Phase) (s : List (Step α)) : amounts phase (s.map Step.seen) = amounts phase s := by
  induction s generalizing phase with
  | nil => rfl
  | cons e s ih =>
    rw [List.map_cons, amounts, amounts, Phase.after_seen, ih]
    congr 1
    cases e with
    | renew => exact congrArg ([·]) (lead_seen .level s)
    | _ => rfl

/-- One entry for each draw. -/
theorem length_amounts (phase : Phase) (s : List (Step α)) : (amounts phase s).length = s.countP Step.draws := by
  induction s generalizing phase with
  | nil => rfl
  | cons e s ih =>
    rw [amounts, List.length_append, ih, List.countP_cons, Nat.add_comm]
    cases e <;> rfl

theorem lead_le (phase : Phase) (s : List (Step α)) : lead phase s ≤ 1 := by
  cases phase with
  | level => exact Bool.toNat_le _
  | tainted => exact Nat.le_refl 1
  | answered => exact Nat.zero_le 1

theorem amounts_le (phase : Phase) (s : List (Step α)) : ∀ a ∈ amounts phase s, a ≤ 2 := by
  induction s generalizing phase with
  | nil => simp [amounts]
  | cons e s ih =>
    intro a ha
    rcases List.mem_append.mp ha with ha | ha
    · cases e with
      | query c above =>
        rw [List.mem_singleton.mp ha]
        split <;> omega
      | renew =>
        rw [List.mem_singleton.mp ha]
        exact (lead_le _ s).trans (by omega)
      | shown | slot => exact absurd ha List.not_mem_nil
    · exact ih _ a ha

/-- A marked slot costs three units of noise at most: one in its threshold and two in the answer. -/
theorem cost (phase : Phase) (s : List (Step α)) :
    lead phase s + (amounts phase s).sum ≤ 3 * marks s + if phase = .tainted then 3 else 0 := by
  induction s generalizing phase with
  | nil => cases phase <;> simp [lead, amounts, pending, marks]
  | cons e s ih =>
    cases e with
    | shown a =>
      have rest := ih phase
      cases phase <;> exact rest
    | slot marked =>
      have rest := ih (phase.mark marked)
      cases marked with
      | false => cases phase <;> exact rest
      | true =>
        cases phase <;> simp only [lead, pending, amounts, Step.amount, Phase.after, Phase.mark, marks,
          List.nil_append, Bool.toNat_true, reduceCtorEq, if_true, if_false] at rest ⊢ <;> omega
    | query c above =>
      cases above with
      | false =>
        have rest := ih phase
        cases phase <;> simpa [lead, pending, amounts, Step.amount, Phase.after, marks] using rest
      | true =>
        have rest := ih .answered
        cases phase <;> simp [lead, pending, amounts, Step.amount, Phase.after, marks] at rest ⊢ <;> omega
    | renew =>
      have rest := ih .level
      cases phase <;> simp [lead, pending, amounts, Step.amount, Phase.after, marks] at rest ⊢ <;> omega

end Amounts
section Transfer
variable {base ν ν' : Nat → Int} {phase : Phase} {m m' : Meter} {s s' : List (Step α)} {e : Step α}

/-- Before the threshold is crossed its lead stays what it is. -/
theorem lead_after (quiet : e ≠ .renew) (opened : phase.after e ≠ .answered) :
    phase ≠ .answered ∧ lead (phase.after e) s = lead phase (e :: s) := by
  cases e with
  | shown a =>
    refine ⟨opened, ?_⟩
    cases phase <;> rfl
  | slot marked => cases marked <;> cases phase <;> simp_all [Phase.after, Phase.mark, lead, pending]
  | query c above =>
    cases above with
    | true => exact absurd rfl opened
    | false =>
      refine ⟨opened, ?_⟩
      cases phase <;> rfl
  | renew => exact absurd rfl quiet

/-- The additional noise makes up for the difference of the statistics. -/
theorem answer_eq {c c' η η' θ θ' : Int} {above above' : Bool} (near : phase.Near c c')
    (decided : above = true ↔ θ < c + η) (decided' : above' = true ↔ θ' < c' + η')
    (threshold : phase ≠ .answered → θ' = θ + lead phase (.query c above :: s))
    (noise : η' = η + ((if above = true ∧ phase = .tainted then 2 else 0 : Nat) : Int)) : above = above' := by
  cases phase with
  | level =>
    obtain rfl : c = c' := near
    have threshold := threshold (by simp)
    cases above with
    | true =>
      have high := decided.mp rfl
      simp [lead, pending] at threshold noise
      exact (decided'.mpr (by omega)).symm
    | false =>
      have low := mt decided.mpr Bool.false_ne_true
      simp [lead, pending] at threshold noise
      have low' : above' ≠ true := mt decided'.mp (by omega)
      simpa using low'
  | tainted =>
    obtain ⟨le, le'⟩ : c ≤ c' + 1 ∧ c' ≤ c + 1 := near
    have threshold : θ' = θ + 1 := threshold (by simp)
    cases above with
    | true =>
      have high := decided.mp rfl
      simp at noise
      exact (decided'.mpr (by omega)).symm
    | false =>
      have low := mt decided.mpr Bool.false_ne_true
      simp at noise
      have low' : above' ≠ true := mt decided'.mp (by omega)
      simpa using low'
  | answered => exact near.elim

/-- With the additional noise the second mechanism answers as the first does. -/
theorem Drift.seen_eq (drift : Drift phase s s') (answers : Answers base ν m s) (answers' : Answers base ν' m' s')
    (draws : m'.draws = m.draws) (renewals : m'.renewals = m.renewals)
    (threshold : phase ≠ .answered → m'.threshold = m.threshold + lead phase s)
    (noise : ∀ i, ν' (m.draws + i) = ν (m.draws + i) + (amounts phase s).getD i 0) :
    s.map Step.seen = s'.map Step.seen := by
  induction s generalizing phase m m' s' with
  | nil =>
    cases s' with
    | nil => rfl
    | cons => exact drift.elim
  | cons e s ih =>
    cases s' with
    | nil => exact drift.elim
    | cons e' s' =>
      obtain ⟨near, drift⟩ := drift
      obtain ⟨fits, answers⟩ := answers
      obtain ⟨fits', answers'⟩ := answers'
      have tail : ∀ {a : Nat}, (∀ i, ν' (m.draws + i) = ν (m.draws + i) + (a :: amounts (phase.after e) s).getD i 0) →
          ∀ i, ν' (m.draws + 1 + i) = ν (m.draws + 1 + i) + (amounts (phase.after e) s).getD i 0 := by
        intro a all i
        have here := all (i + 1)
        rwa [List.getD_cons_succ, ← Nat.add_assoc, Nat.add_right_comm] at here
      have kept : e ≠ .renew → phase.after e ≠ .answered → m'.threshold = m.threshold + lead (phase.after e) s := by
        intro quiet opened
        obtain ⟨before, same⟩ := lead_after quiet opened
        rw [same]
        exact threshold before
      cases e with
      | shown a =>
        cases e' with
        | shown a' =>
          obtain rfl : a = a' := near
          have rest := ih (drift rfl) answers answers' draws renewals (kept (by simp)) noise
          rw [List.map_cons, List.map_cons, rest]
        | _ => exact near.elim
      | slot marked =>
        cases e' with
        | slot marked' =>
          obtain rfl : marked = marked' := near
          have rest := ih (drift rfl) answers answers' draws renewals (kept (by simp)) noise
          rw [List.map_cons, List.map_cons, rest]
        | _ => exact near.elim
      | query c above =>
        cases e' with
        | query c' above' =>
          have first : ν' m.draws = ν m.draws + ((if above = true ∧ phase = .tainted then 2 else 0 : Nat) : Int) :=
            noise 0
          obtain rfl : above = above' := answer_eq near fits fits' threshold (draws ▸ first)
          have rest := ih (drift rfl) answers answers' (congrArg (· + 1) draws) renewals (kept (by simp)) (tail noise)
          rw [List.map_cons, List.map_cons, rest]
          rfl
        | _ => exact near.elim
      | renew =>
        cases e' with
        | renew =>
          have first : ν' m.draws = ν m.draws + (lead .level s : Nat) := noise 0
          have renewed : base (m'.renewals + 1) + ν' m'.draws = base (m.renewals + 1) + ν m.draws + lead .level s := by
            rw [renewals, draws, first, Int.add_assoc]
          have rest := ih (drift rfl) answers answers' (congrArg (· + 1) draws) (congrArg (· + 1) renewals)
            (fun _ => renewed) (tail noise)
          rw [List.map_cons, List.map_cons, rest]
        | _ => exact near.elim

end Transfer
section Noise
variable {W : Type} (below : W → Bool) (n : Nat)

/-- Draw number `i`: the difference of two capped runs. -/
def noise (words : Nat → W) (i : Nat) : Int :=
  (Tape.run below words (2 * n * i) n : Int) - Tape.run below words (2 * n * i + n) n

/-- Where low words go that add these amounts to the draws from number `i` on. -/
def starts : Nat → List Nat → List Nat
  | _, [] => []
  | i, a :: l => List.replicate a (2 * n * i) ++ starts (i + 1) l

variable {n}

theorem length_starts (i : Nat) (l : List Nat) : (starts n i l).length = l.sum := by
  induction l generalizing i with
  | nil => rfl
  | cons a l ih => rw [starts, List.length_append, List.length_replicate, ih, List.sum_cons]

theorem mem_starts {i : Nat} {l : List Nat} {s : Nat} (hs : s ∈ starts n i l) :
    ∃ j < l.length, s = 2 * n * (i + j) := by
  induction l generalizing i with
  | nil => exact absurd hs List.not_mem_nil
  | cons a l ih =>
    rcases List.mem_append.mp hs with hs | hs
    · exact ⟨0, Nat.succ_pos _, List.eq_of_mem_replicate hs⟩
    · obtain ⟨j, hj, same⟩ := ih hs
      exact ⟨j + 1, Nat.succ_lt_succ hj, by rw [same, Nat.add_assoc, Nat.add_comm 1]⟩

theorem count_starts (pos : 0 < n) (i j : Nat) (l : List Nat) :
    (starts n i l).count (2 * n * (i + j)) = l.getD j 0 := by
  induction l generalizing i j with
  | nil => rfl
  | cons a l ih =>
    rw [starts, List.count_append]
    cases j with
    | zero =>
      have none : (starts n (i + 1) l).count (2 * n * (i + 0)) = 0 := by
        refine List.count_eq_zero.mpr fun hs => ?_
        obtain ⟨k, -, same⟩ := mem_starts hs
        have := Nat.eq_of_mul_eq_mul_left (show 0 < 2 * n by omega) same
        omega
      rw [none, Nat.add_zero, Nat.add_zero, List.count_replicate_self]
      rfl
    | succ j =>
      have none : (List.replicate a (2 * n * i)).count (2 * n * (i + (j + 1))) = 0 := by
        refine List.count_eq_zero.mpr fun hs => ?_
        have := Nat.eq_of_mul_eq_mul_left (show 0 < 2 * n by omega) (List.eq_of_mem_replicate hs)
        omega
      rw [none, Nat.zero_add, List.getD_cons_succ, ← ih, Nat.add_right_comm, Nat.add_assoc]

/-- Blocks of different draws lie apart. -/
theorem blocks_apart {i j : Nat} (other : i ≠ j) :
    2 * n * i + 2 * n ≤ 2 * n * j ∨ 2 * n * j + 2 * n ≤ 2 * n * i := by
  rcases Nat.lt_or_gt_of_ne other with h | h
  · exact .inl (by rw [← Nat.mul_succ]; exact Nat.mul_le_mul_left _ h)
  · exact .inr (by rw [← Nat.mul_succ]; exact Nat.mul_le_mul_left _ h)

variable {M : Nat} [Inhabited W] {below} {tape tape' : Fin M → W}

/-- The draws of a tape to which low words have been added. -/
theorem noise_lengthened (pos : 0 < n) {l : List Nat} (room : 2 * n * l.length ≤ M) (small : ∀ a ∈ l, a ≤ 2)
    (longer : Lengthened below n (starts n 0 l) tape tape')
    (good : ∀ i < l.length, Tape.run below (stream tape) (2 * n * i) n + 2 ≤ n) (i : Nat) :
    noise below n (stream tape') i = noise below n (stream tape) i + (l.getD i 0 : Nat) := by
  have inside : ∀ s ∈ starts n 0 l, s + n ≤ M := by
    intro s hs
    obtain ⟨j, hj, rfl⟩ := mem_starts hs
    have : 2 * n * (j + 1) ≤ 2 * n * l.length := Nat.mul_le_mul_left _ hj
    rw [Nat.mul_succ] at this
    rw [Nat.zero_add]
    omega
  have count := count_starts pos 0 i l
  rw [Nat.zero_add] at count
  have first : Tape.run below (stream tape') (2 * n * i) n =
      Tape.run below (stream tape) (2 * n * i) n + l.getD i 0 := by
    rw [← count]
    refine longer.run pos inside (fun s hs => ?_) ?_
    · obtain ⟨j, -, rfl⟩ := mem_starts hs
      rw [Nat.zero_add]
      by_cases here : j = i
      · exact .inl (by rw [here])
      · have := blocks_apart (n := n) here
        omega
    · rw [count]
      by_cases hi : i < l.length
      · have le : l.getD i 0 ≤ 2 := by
          rw [List.getD_eq_getElem _ _ hi]
          exact small _ (List.getElem_mem hi)
        have := good i hi
        omega
      · rw [List.getD_eq_default _ _ (Nat.le_of_not_lt hi)]
        exact run_le _ _ _ _
  have second : Tape.run below (stream tape') (2 * n * i + n) n = Tape.run below (stream tape) (2 * n * i + n) n := by
    refine longer.run_other pos fun s hs => ?_
    obtain ⟨j, -, rfl⟩ := mem_starts hs
    rw [Nat.zero_add]
    by_cases here : j = i
    · exact .inl (by rw [here])
    · have := blocks_apart (n := n) here
      omega
  rw [noise, noise, first, second]
  push_cast
  ring

end Noise

section Privacy
variable {W : Type} [Fintype W] [Inhabited W] {below : W → Bool} {n M D R : Nat} {base : Nat → Int}
  {t t' : (Fin M → W) → List (Step α)}

/-- The mechanism `t` answers with the noise of its tape. -/
def Noisy (below : W → Bool) (n : Nat) (base : Nat → Int) (t : (Fin M → W) → List (Step α)) : Prop :=
  ∀ tape, Answers base (noise below n (stream tape)) (Meter.start base (noise below n (stream tape))) (t tape)

/-- A tape on which no draw is close to its cap. -/
def Good (below : W → Bool) (n D : Nat) (tape : Fin M → W) : Prop :=
  ∀ i < D, Tape.run below (stream tape) (2 * n * i) n < n - 1

omit [Fintype W] in
/-- A good tape of the first mechanism yields tapes on which the second one shows the same. -/
theorem same_seen (pos : 0 < n) (noisy : Noisy below n base t) (noisy' : Noisy below n base t')
    (drift : ∀ tape tape', Drift .level (t tape) (t' tape')) {tape tape' : Fin M → W}
    (draws : (amounts .level (t tape)).length < D) (room : 2 * n * D ≤ M) (good : Good below n D tape)
    (longer : Lengthened below n (starts n 0 (lead .level (t tape) :: amounts .level (t tape))) tape tape') :
    (t tape).map Step.seen = (t' tape').map Step.seen := by
  have short : 2 * n * (lead .level (t tape) :: amounts .level (t tape)).length ≤ M :=
    (Nat.mul_le_mul_left _ (by rw [List.length_cons]; omega)).trans room
  have small : ∀ a ∈ lead .level (t tape) :: amounts .level (t tape), a ≤ 2 :=
    List.forall_mem_cons.mpr ⟨(lead_le _ _).trans (by omega), amounts_le _ _⟩
  have shifted := noise_lengthened pos short small longer fun i hi => by
    have := good i (by rw [List.length_cons] at hi; omega)
    omega
  refine (drift tape tape').seen_eq (noisy tape) (noisy' tape') rfl rfl (fun _ => ?_) fun i => ?_
  · change base 0 + _ = base 0 + _ + _
    rw [shifted 0, Int.add_assoc]
    rfl
  · have here := shifted (i + 1)
    rwa [List.getD_cons_succ, Nat.add_comm i 1] at here

theorem prob_not_good_le (room : 2 * n * D ≤ M) :
    prob (fun tape : Fin M → W => ¬ Good below n D tape) ≤ D * rate below ^ (n - 1) := by
  have some : prob (fun tape : Fin M → W => ¬ Good below n D tape) ≤
      prob fun tape : Fin M → W => ∃ i < D, n - 1 ≤ Tape.run below (stream tape) (2 * n * i) n := by
    apply prob_mono
    intro tape bad
    simpa [Good] using bad
  refine some.trans (prob_exists_le _ D fun i hi => ?_)
  have inside : 2 * n * i + n ≤ M := by
    have : 2 * n * (i + 1) ≤ 2 * n * D := Nat.mul_le_mul_left _ hi
    rw [Nat.mul_succ] at this
    omega
  exact (prob_le_run (Nat.sub_le n 1) inside).le

omit [Inhabited W] in
theorem rate_le_one (below : W → Bool) : rate below ≤ 1 := by
  have sub : (lowWords below).card ≤ Fintype.card W := card_le_univ _
  exact div_le_one_of_le₀ (Nat.cast_le.mpr sub) (Nat.cast_nonneg _)

/-- The transcripts of one kind are not much likelier in the first mechanism. -/
theorem card_seen_le (pos : 0 < n) (noisy : Noisy below n base t) (noisy' : Noisy below n base t')
    (drift : ∀ tape tape', Drift .level (t tape) (t' tape'))
    (draws : ∀ tape, (amounts .level (t tape)).length < D) (room : 2 * n * D ≤ M)
    (marked : ∀ tape, marks (t tape) ≤ R) (v : List (Step α)) {E E' : Finset (Fin M → W)}
    (hE : ∀ tape ∈ E, Good below n D tape ∧ (t tape).map Step.seen = v)
    (hE' : ∀ tape, (t' tape).map Step.seen = v → tape ∈ E') :
    rate below ^ (3 * R) * E.card ≤ E'.card := by
  rcases E.eq_empty_or_nonempty with rfl | ⟨tape₀, h₀⟩
  · simp
  let l := lead .level v :: amounts .level v
  have same : ∀ tape ∈ E, lead .level (t tape) :: amounts .level (t tape) = l := fun tape htape => by
    rw [← lead_seen, ← amounts_seen, (hE tape htape).2]
  have few : (starts n 0 l).length ≤ 3 * R := by
    have bound := cost .level (t tape₀)
    have total : l.sum = lead .level (t tape₀) + (amounts .level (t tape₀)).sum := by
      rw [← same tape₀ h₀, List.sum_cons]
    have := marked tape₀
    rw [length_starts, total]
    simp only [reduceCtorEq, if_false] at bound
    omega
  have inside : ∀ s ∈ starts n 0 l, s + n ≤ M := by
    intro s hs
    obtain ⟨j, hj, rfl⟩ := mem_starts hs
    have short := draws tape₀
    rw [← same tape₀ h₀, List.length_cons] at hj
    have : 2 * n * (j + 1) ≤ 2 * n * D := Nat.mul_le_mul_left _ (by omega)
    rw [Nat.mul_succ] at this
    rw [Nat.zero_add]
    omega
  have maps : ∀ tape ∈ E, ∀ tape', Lengthened below n (starts n 0 l) tape tape' → tape' ∈ E' := by
    intro tape htape tape' longer
    obtain ⟨good, seen⟩ := hE tape htape
    rw [← same tape htape] at longer
    exact hE' tape' ((same_seen pos noisy noisy' drift (draws tape) room good longer).symm.trans seen)
  have moved := card_lengthened_le pos inside maps
  have words : (0 : ℝ) < Fintype.card W := Nat.cast_pos.mpr Fintype.card_pos
  calc rate below ^ (3 * R) * E.card ≤ rate below ^ (starts n 0 l).length * E.card := by
        apply mul_le_mul_of_nonneg_right _ (Nat.cast_nonneg _)
        exact pow_le_pow_of_le_one (rate_nonneg _) (rate_le_one _) few
    _ ≤ E'.card := by
        rw [rate, div_pow, div_mul_eq_mul_div, div_le_iff₀ (pow_pos words _), mul_comm (E'.card : ℝ)]
        exact_mod_cast moved

/-- Whatever the second mechanism shows with a small probability, the first one does too. -/
theorem privacy (pos : 0 < n) (noisy : Noisy below n base t) (noisy' : Noisy below n base t')
    (drift : ∀ tape tape', Drift .level (t tape) (t' tape'))
    (draws : ∀ tape, (amounts .level (t tape)).length < D) (room : 2 * n * D ≤ M)
    (marked : ∀ tape, marks (t tape) ≤ R) (positive : 0 < rate below) (O : Set (List (Step α))) :
    prob (fun tape => (t tape).map Step.seen ∈ O) ≤
      (rate below)⁻¹ ^ (3 * R) * prob (fun tape => (t' tape).map Step.seen ∈ O) + D * rate below ^ (n - 1) := by
  classical
  let E := univ.filter fun tape => Good below n D tape ∧ (t tape).map Step.seen ∈ O
  let E' := univ.filter fun tape => (t' tape).map Step.seen ∈ O
  let views := E.image fun tape => (t tape).map Step.seen
  have cards : rate below ^ (3 * R) * E.card ≤ E'.card := by
    have split : E.card = ∑ v ∈ views, (E.filter fun tape => (t tape).map Step.seen = v).card :=
      card_eq_sum_card_fiberwise fun tape htape => mem_image_of_mem _ htape
    have split' : ∑ v ∈ views, (E'.filter fun tape => (t' tape).map Step.seen = v).card ≤ E'.card := by
      rw [sum_card_fiberwise_eq_card_filter]
      exact card_le_card (filter_subset _ _)
    have each : ∀ v ∈ views, rate below ^ (3 * R) * ((E.filter fun tape => (t tape).map Step.seen = v).card : ℝ) ≤
        (E'.filter fun tape => (t' tape).map Step.seen = v).card := by
      intro v hv
      obtain ⟨tape₀, h₀, rfl⟩ := mem_image.mp hv
      refine card_seen_le pos noisy noisy' drift draws room marked ((t tape₀).map Step.seen) (fun tape htape => ?_)
        fun tape same => ?_
      · obtain ⟨htape, same⟩ := mem_filter.mp htape
        exact ⟨(mem_filter.mp htape).2.1, same⟩
      · refine mem_filter.mpr ⟨mem_filter.mpr ⟨mem_univ _, ?_⟩, same⟩
        rw [same]
        exact (mem_filter.mp h₀).2.2
    calc rate below ^ (3 * R) * E.card
        = ∑ v ∈ views, rate below ^ (3 * R) * ((E.filter fun tape => (t tape).map Step.seen = v).card : ℝ) := by
          rw [split, Nat.cast_sum, mul_sum]
      _ ≤ ∑ v ∈ views, ((E'.filter fun tape => (t' tape).map Step.seen = v).card : ℝ) := sum_le_sum each
      _ ≤ E'.card := by exact_mod_cast split'
  have good : prob (fun tape => Good below n D tape ∧ (t tape).map Step.seen ∈ O) ≤
      (rate below)⁻¹ ^ (3 * R) * prob (fun tape => (t' tape).map Step.seen ∈ O) := by
    rw [inv_pow, inv_mul_eq_div, le_div_iff₀ (pow_pos positive _), prob_eq, prob_eq, div_mul_eq_mul_div]
    apply div_le_div_of_nonneg_right _ (Nat.cast_nonneg _)
    rw [mul_comm]
    exact cards
  calc prob (fun tape => (t tape).map Step.seen ∈ O)
      ≤ prob (fun tape => Good below n D tape ∧ (t tape).map Step.seen ∈ O) +
          prob (fun tape : Fin M → W => ¬ Good below n D tape) := by
        apply prob_or_le
        intro tape shown
        by_cases here : Good below n D tape
        · exact .inl ⟨here, shown⟩
        · exact .inr here
    _ ≤ _ := add_le_add good (prob_not_good_le room)

/-- Neither mechanism shows anything that the other one hides. -/
theorem indistinguishable (pos : 0 < n) (noisy : Noisy below n base t) (noisy' : Noisy below n base t')
    (drift : ∀ tape tape', Drift .level (t tape) (t' tape'))
    (draws : ∀ tape, (amounts .level (t tape)).length < D) (draws' : ∀ tape, (amounts .level (t' tape)).length < D)
    (room : 2 * n * D ≤ M) (marked : ∀ tape, marks (t tape) ≤ R) (marked' : ∀ tape, marks (t' tape) ≤ R)
    (positive : 0 < rate below) :
    Indistinguishable ((rate below)⁻¹ ^ (3 * R)) (D * rate below ^ (n - 1)) (fun tape => (t tape).map Step.seen)
      fun tape => (t' tape).map Step.seen := by
  intro O
  constructor
  · exact privacy pos noisy noisy' drift draws room marked positive O
  · exact privacy pos noisy' noisy (fun tape tape' => (drift tape' tape).symm) draws' room marked' positive O

end Privacy
end Roga.SparseVector
