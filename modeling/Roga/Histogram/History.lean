import Roga.Histogram.Accounting

/-! The resize accounting against the recorded history: an eviction counts the
keys of its leaf whose earliest insertion since their last read is of the
current epoch. -/
namespace Roga
open Ct Reals ObliviousStash ObliviousHistogram
variable {Z K A S : Nat} {V : Type} {math : ResizeMath}

/-- The epoch of the earliest insertion of a payload since it was last removed. -/
def firstEpoch (payload : List UInt8) : List Event → Option UInt8
  | [] => none
  | .stored q epoch :: past =>
    (firstEpoch payload past).or (if q = payload then some epoch else none)
  | .removed q :: past => if q = payload then none else firstEpoch payload past
  | _ :: past => firstEpoch payload past

theorem firstEpoch_historyOf (payload : List UInt8) (trace : List Event) :
    firstEpoch payload (historyOf trace) = firstEpoch payload trace := by
  induction trace with
  | nil => rfl
  | cons e trace ih =>
    cases e with
    | stored q epoch => exact congrArg (Option.or · _) ih
    | removed q =>
      change (if q = payload then none else firstEpoch payload (historyOf trace)) = _
      rw [ih, firstEpoch]
    | _ => exact ih

/-- Operations over `keys`. -/
def TreeOp.Keyed (prf : Aes128) (keys : List UInt8 → Prop) : TreeOp K V → Prop
  | .append key _ => keys key
  | .readTotal key => keys key
  | .appendBatch updates => KnownUpdates (keyed prf keys) updates
  | _ => True

/-- `count` is the number of keys of a leaf that are new in an epoch. -/
def CountsNew (prf : Aes128) (K : Nat) (keys : List UInt8 → Prop) (past : List Event) (height : Nat)
    (leaf : TreeIndex) (epoch : UInt8) (count : Nat) : Prop :=
  ∃ ks : List (List UInt8), ks.Nodup ∧ ks.length = count ∧ ∀ k, k ∈ ks ↔
    keys k ∧ toLeaf (prfTag prf k) height = leaf ∧ firstEpoch (copyPrefix K k).toList past = some epoch

namespace ObliviousHistogram
variable {h h' g : ObliviousHistogram Z K A S V} {keys : List UInt8 → Prop} {prf : Aes128}

/-- The history tells the oldest epoch of each key. -/
structure Recorded [Add V] (prf : Aes128) (keys : List UInt8 → Prop) (h : ObliviousHistogram Z K A S V) : Prop where
  inv : h.Inv (keyed prf keys)
  prf_eq : h.prf = prf
  epochs : ∀ k, keys k → (mass (forget V) (copyPrefix K k) h.contents).epoch =
    (firstEpoch (copyPrefix K k).toList (historyOf h.trace)).map UInt8.toNat
  bounded : ∀ k, keys k → ∀ e, firstEpoch (copyPrefix K k).toList (historyOf h.trace) = some e →
    e.toNat ≤ h.epoch.toNat

section Steps
variable [Add V]

theorem Recorded.quiet (recorded : Recorded prf keys h) (inv : h'.Inv (keyed prf keys)) (hprf : h'.prf = h.prf)
    (later : h.epoch.toNat ≤ h'.epoch.toNat) (history : historyOf h'.trace = historyOf h.trace)
    (masses : ∀ p, mass (forget V) p h'.contents = mass (forget V) p h.contents) : Recorded prf keys h' where
  inv := inv
  prf_eq := hprf.trans recorded.prf_eq
  epochs k hk := by rw [masses, history, recorded.epochs k hk]
  bounded k hk e he := (recorded.bounded k hk e (history ▸ he)).trans later

/-- The least epoch after one more block, which is no older than the others. -/
theorem epoch_cons {f : V →ₙ+ Unit} {b : OramBlock K V} {m : Mass Unit} {p : Vector UInt8 K} (hr : b.isReal = true)
    (newest : ∀ e, m.epoch = some e → e ≤ b.epoch.toNat) :
    (weight f p b + m).epoch = m.epoch.or (if b.payload = p then some b.epoch.toNat else none) := by
  by_cases same : b.payload = p
  · rw [weight_real hr same, if_pos same]
    cases m using WithZero.recZeroCoe with
    | zero =>
      rw [add_zero]
      rfl
    | coe m =>
      have old := newest _ rfl
      change some (min b.epoch.toNat (Tropical.untrop m.2)) = some _
      rw [min_eq_right old]
  · rw [weight_other same, zero_add, if_neg same, Option.or_none]

/-- Inserted blocks of the current epoch and their records. -/
theorem epochs_stored {blocks : List (OramBlock K V)} {epoch : UInt8} (current : ∀ b ∈ blocks, b.epoch = epoch)
    (real : ∀ b ∈ blocks, b.isReal = true) {m : Mass Unit} {p : Vector UInt8 K} {past : List Event}
    (agree : m.epoch = (firstEpoch p.toList past).map UInt8.toNat)
    (older : ∀ e, firstEpoch p.toList past = some e → e.toNat ≤ epoch.toNat) :
    (mass (forget V) p blocks + m).epoch =
      (firstEpoch p.toList ((blocks.map fun b => Event.stored b.payload.toList b.epoch).reverse ++ past)).map
        UInt8.toNat ∧
    ∀ e, firstEpoch p.toList ((blocks.map fun b => Event.stored b.payload.toList b.epoch).reverse ++ past) = some e →
      e.toNat ≤ epoch.toNat := by
  induction blocks generalizing m past with
  | nil => exact ⟨by rw [mass_nil, zero_add]; exact agree, older⟩
  | cons b blocks ih =>
    have now := current b (.head _)
    have newest : ∀ e, m.epoch = some e → e ≤ b.epoch.toNat := fun e he => by
      rw [agree] at he
      obtain ⟨e', he', rfl⟩ := Option.map_eq_some_iff.mp he
      exact now ▸ older e' he'
    have same : (b.payload.toList = p.toList) ↔ b.payload = p := Vector.toList_inj
    have first : (weight (forget V) p b + m).epoch =
        (firstEpoch p.toList (.stored b.payload.toList b.epoch :: past)).map UInt8.toNat := by
      rw [epoch_cons (real b (.head _)) newest, agree]
      simp only [firstEpoch, same]
      cases firstEpoch p.toList past with
      | none => split <;> rfl
      | some e => rfl
    have older' : ∀ e, firstEpoch p.toList (.stored b.payload.toList b.epoch :: past) = some e →
        e.toNat ≤ epoch.toNat := fun e he => ?_
    · rw [mass_cons, add_right_comm, add_comm, List.map_cons, List.reverse_cons, List.append_assoc]
      exact ih (fun c hc => current c (.tail _ hc)) (fun c hc => real c (.tail _ hc)) first older'
    simp only [firstEpoch] at he
    cases before : firstEpoch p.toList past with
    | some e' =>
      rw [before, Option.some_or, Option.some.injEq] at he
      exact he ▸ older e' before
    | none =>
      rw [before, Option.none_or] at he
      split at he
      · rw [← Option.some.inj he, now]
      · simp at he

variable [Inhabited V]

omit [Inhabited V] in
theorem Recorded.fill (recorded : Recorded prf keys h) {count : Nat} {blocks : List (OramBlock K V)}
    (filled : Filled (keyed prf keys) h count blocks g) (current : ∀ b ∈ reals blocks, b.epoch = h.epoch) :
    Recorded prf keys g := by
  have stored := fun k hk => epochs_stored current (fun b hb => (mem_reals.mp hb).2)
    (recorded.epochs k hk) (recorded.bounded k hk)
  refine ⟨filled.inv, filled.prf.trans recorded.prf_eq, fun k hk => ?_, fun k hk e he => ?_⟩
  · rw [mass_perm _ filled.contents, mass_append, filled.history]
    exact (stored k hk).1
  · rw [filled.history] at he
    exact filled.epoch ▸ (stored k hk).2 e he

omit [Add V] [Inhabited V] in
/-- Payloads of known keys are the payloads of distinct keys. -/
theorem keys_of_payloads {payloads : List (Vector UInt8 K)}
    (known : ∀ p ∈ payloads, ∃ k, keys k ∧ copyPrefix K k = p) :
    ∃ ks : List (List UInt8), (∀ k ∈ ks, keys k) ∧ ks.map (copyPrefix K) = payloads := by
  induction payloads with
  | nil => exact ⟨[], by simp, rfl⟩
  | cons p payloads ih =>
    obtain ⟨k, hk, rfl⟩ := known p (.head _)
    obtain ⟨ks, all, rfl⟩ := ih fun q hq => known q (.tail _ hq)
    exact ⟨k :: ks, List.forall_mem_cons.mpr ⟨hk, all⟩, rfl⟩

/-- What an eviction counts, in terms of the history. -/
theorem Recorded.evictCount (sep : Separated prf K keys) (recorded : Recorded prf keys h) :
    CountsNew prf K keys (historyOf h.trace) h.height (evictLeafAt h.height h.evictCtr) h.epoch h.evictCount := by
  obtain ⟨payloads, nodup, count, mem⟩ := evictCount_spec recorded.inv sep.identified sep.oneTag
  have counted : ∀ k, keys k → (Counted (keyed prf keys) h (copyPrefix K k) ↔
      toLeaf (prfTag prf k) h.height = evictLeafAt h.height h.evictCtr ∧
        firstEpoch (copyPrefix K k).toList (historyOf h.trace) = some h.epoch) := fun k hk => by
    rw [Counted, recorded.epochs k hk]
    refine and_congr ?_ ?_
    · constructor
      · rintro ⟨t, ht, here⟩
        rwa [← sep.covers hk ht]
      · exact fun here => ⟨_, ⟨k, hk, rfl⟩, here⟩
    · cases firstEpoch (copyPrefix K k).toList (historyOf h.trace) with
      | none => simp
      | some e => simp [UInt8.toNat_inj]
  have known : ∀ p ∈ payloads, ∃ k, keys k ∧ copyPrefix K k = p := fun p hp => by
    obtain ⟨⟨t, ⟨k, hk, same⟩, -⟩, -⟩ := (mem p).mp hp
    exact ⟨k, hk, (congrArg Prod.snd same).symm⟩
  obtain ⟨ks, all, rfl⟩ := keys_of_payloads known
  refine ⟨ks, nodup.of_map _, by rw [← count, List.length_map], fun k => ⟨fun here => ?_, ?_⟩⟩
  · exact ⟨all k here, (counted k (all k here)).mp ((mem _).mp (List.mem_map_of_mem here))⟩
  · rintro ⟨hk, here⟩
    obtain ⟨k', hk', same⟩ := List.mem_map.mp ((mem _).mpr ((counted k hk).mpr here))
    exact sep.prefix_inj k' k (all k' hk') hk same ▸ hk'

omit [Add V] in
theorem checkAndMaybeResizePostEviction_history (run : h.checkAndMaybeResizePostEviction math = .ok h') :
    historyOf h'.trace = historyOf h.trace := by
  cases checkAndMaybeResizePostEviction_spec run with
  | early same => rw [same]
  | kept _ _ _ _ _ _ _ same =>
    rw [same]
    rfl
  | grown _ _ _ _ _ _ _ run => exact (applyAutoResizeGrow_grown run).history

omit [Add V] [Inhabited V] in
theorem takeDeferredAutoResizeSignal_quiet {signal : Option Nat}
    (run : h.takeDeferredAutoResizeSignal = .ok (signal, h')) :
    historyOf h'.trace = historyOf h.trace ∧ h.epoch.toNat ≤ h'.epoch.toNat := by
  obtain ⟨-, -, -, -, -, rfl⟩ := takeDeferredAutoResizeSignal_spec run
  exact ⟨rfl, le_rfl⟩

/-- An eviction records what it counts, and nothing else of the history. -/
theorem evictAfterInsert_history (run : h.evictAfterInsert math = .ok h') :
    historyOf h'.trace = (h.autoResize.map fun auto => Event.counted h.height (evictLeafAt h.height h.evictCtr)
      h.epoch auto.cSum (auto.cSum + h.evictCount)).toList ++ historyOf h.trace := by
  obtain ⟨g, written, check⟩ := evictAfterInsert_spec run
  have prep := evictPrepared_spec h
  rw [checkAndMaybeResizePostEviction_history check, (updatePeakOverflow_still g).history,
    (writePath_still written).history, prep.history, prep.stash]
  rfl

theorem saturatingSucc_le (epoch : UInt8) : epoch.toNat ≤ (saturatingSucc epoch).toNat := by
  rw [saturatingSucc]
  split
  · rename_i full
    rw [full]
  · rename_i room
    have := epoch.toNat_lt
    have below : epoch.toNat ≠ 255 := fun same => room (UInt8.toNat_inj.mp same)
    rw [UInt8.toNat_add]
    change epoch.toNat ≤ (epoch.toNat + 1) % 256
    omega

omit [Add V] [Inhabited V] in
theorem Evicted.later {count : Nat} (step : Evicted math h count h') : h.epoch.toNat ≤ h'.epoch.toNat := by
  cases step with
  | off ticked | counted ticked | checked ticked => rw [ticked.epoch]
  | grown _ _ _ _ _ _ _ m ticked _ grown =>
    rw [grown.epoch, ticked.epoch]
    exact saturatingSucc_le h.epoch

theorem Recorded.evict (recorded : Recorded prf keys h) (run : h.evictAfterInsert math = .ok h') :
    Recorded prf keys h' := by
  have moves := evictAfterInsert_reshuffle recorded.inv.shape.height_le run
  have history := evictAfterInsert_history run
  have first : ∀ p, firstEpoch p (historyOf h'.trace) = firstEpoch p (historyOf h.trace) := fun p => by
    rw [history]
    cases h.autoResize with
    | none => rfl
    | some auto => rfl
  refine ⟨moves.inv recorded.inv, moves.prf.trans recorded.prf_eq, fun k hk => ?_, fun k hk e he => ?_⟩
  · rw [moves.mass_eq recorded.inv, first, recorded.epochs k hk]
  · exact (recorded.bounded k hk e (first _ ▸ he)).trans (evictAfterInsert_control run).later

theorem Recorded.evictIf (recorded : Recorded prf keys h) {due : Prop} [Decidable due]
    (run : (if due then h.evictAfterInsert math else .ok h) = .ok h') : Recorded prf keys h' := by
  split at run
  · exact recorded.evict run
  · rw [Except.ok.injEq] at run
    exact run ▸ recorded

theorem Recorded.append (recorded : Recorded prf keys h) {key : List UInt8}
    (hkey : keys key) {val : V} (run : h.append math key val = .ok h') : Recorded prf keys h' := by
  rw [ObliviousHistogram.append, recorded.prf_eq] at run
  obtain ⟨m, filled, evicted⟩ := addPreparedInner_filled recorded.inv (fun _ => ⟨key, hkey, rfl⟩) run
  refine (recorded.fill filled fun b hb => ?_).evictIf evicted
  rw [List.mem_singleton.mp (mem_reals.mp hb).1]

omit [Add V] in
theorem preparedBlock_epoch {epoch : UInt8} {u : PreparedUpdate K V} (real : (preparedBlock epoch u).isReal = true) :
    (preparedBlock epoch u).epoch = epoch := by
  rw [preparedBlock, updateBlock_eq] at real ⊢
  split at real
  · rename_i on
    rw [if_pos on]
  · simp at real

omit [Add V] in
theorem preparedBlocks_epoch (epoch : UInt8) (updates : List (PreparedUpdate K V)) :
    ∀ b ∈ reals (updates.map (preparedBlock epoch)), b.epoch = epoch := by
  intro b hb
  obtain ⟨hb, real⟩ := mem_reals.mp hb
  obtain ⟨u, -, rfl⟩ := List.mem_map.mp hb
  exact preparedBlock_epoch real

theorem Recorded.batch (recorded : Recorded prf keys h)
    {updates : List (PreparedUpdate K V)} (knows : KnownUpdates (keyed prf keys) updates)
    (run : h.appendPreparedMaskedBatch math updates = .ok h') : Recorded prf keys h' := by
  induction hn : updates.length using Nat.strong_induction_on generalizing h updates with
  | _ n ih =>
    by_cases some : updates = []
    · rw [some, appendPreparedMaskedBatch, dif_pos rfl, Except.ok.injEq] at run
      exact run ▸ recorded
    obtain ⟨progress, m, e, filled, evicted, run⟩ := batch_filled recorded.inv knows some run
    have inserted : Recorded prf keys m := recorded.fill filled (preparedBlocks_epoch _ _)
    refine ih _ ?_ (inserted.evictIf evicted) (fun u hu => knows u (List.mem_of_mem_drop hu)) run rfl
    have := List.length_pos_iff.mpr some
    rw [List.length_drop]
    omega

theorem Recorded.readTotal (sep : Separated prf K keys) (recorded : Recorded prf keys h) {key : List UInt8}
    (hkey : keys key) {v : V} (run : h.readTotal key = .ok (v, h')) : Recorded prf keys h' := by
  have covers : ∀ t, keyed prf keys (t, copyPrefix K key) →
      toLeaf t h.height = toLeaf (prfTag h.prf key) h.height := fun t known => by
    rw [sep.covers hkey known, recorded.prf_eq]
  have masses := readPreparedTotal_mass (f := forget V) recorded.inv (mass_rest recorded.inv covers) run
  have still := readPreparedTotal_still run
  have history : historyOf h'.trace = .removed (copyPrefix K key).toList :: historyOf h.trace := still.history
  have first : ∀ p : Vector UInt8 K, firstEpoch p.toList (historyOf h'.trace) =
      if p = copyPrefix K key then none else firstEpoch p.toList (historyOf h.trace) := fun p => by
    simp only [history, firstEpoch, Vector.toList_inj, eq_comm]
  obtain ⟨inv', prf', -⟩ := readPreparedTotal_step recorded.inv run
  refine ⟨inv', prf'.trans recorded.prf_eq, fun k hk => ?_, fun k hk e he => ?_⟩
  · rw [masses, first]
    split
    · rfl
    · exact recorded.epochs k hk
  · rw [first] at he
    split at he
    · simp at he
    · exact (recorded.bounded k hk e he).trans_eq (congrArg UInt8.toNat still.epoch.symm)

omit [Add V] [Inhabited V] in
theorem Still.later (still : Still h h') : h.epoch.toNat ≤ h'.epoch.toNat := (congrArg UInt8.toNat still.epoch).ge

omit [Add V] [Inhabited V] in
theorem Grown.later (grown : Grown math h h') : h.epoch.toNat ≤ h'.epoch.toNat := by
  rw [grown.epoch]
  exact saturatingSucc_le h.epoch

/-- The other operations neither insert, remove nor count. -/
theorem step_quiet {op : TreeOp K V} {out : Option V} (run : h.step math op = .ok (out, h'))
    (quiet : ∀ key val, op ≠ .append key val) (quiet' : ∀ updates, op ≠ .appendBatch updates)
    (quiet'' : ∀ key, op ≠ .readTotal key) :
    historyOf h'.trace = historyOf h.trace ∧ h.epoch.toNat ≤ h'.epoch.toNat := by
  cases op with
  | append key val => exact absurd rfl (quiet key val)
  | appendBatch updates => exact absurd rfl (quiet' updates)
  | readTotal key => exact absurd rfl (quiet'' key)
  | readDummy draw =>
    obtain ⟨g, hg, same⟩ := map_ok run
    obtain ⟨-, rfl⟩ := Prod.mk.inj same
    exact ⟨(readDummy_still hg).history, (readDummy_still hg).later⟩
  | flush =>
    simp only [step, Except.ok.injEq, Prod.mk.injEq] at run
    exact run.2 ▸ ⟨rfl, le_rfl⟩
  | grow =>
    obtain ⟨g, hg, same⟩ := map_ok run
    obtain ⟨-, rfl⟩ := Prod.mk.inj same
    exact ⟨(grow_grown hg).history, (grow_grown hg).later⟩
  | enableAutoResize cfg =>
    obtain ⟨g, hg, same⟩ := map_ok run
    obtain ⟨-, rfl⟩ := Prod.mk.inj same
    obtain ⟨sampler, -, -, rfl⟩ := configureAutoResize_spec hg
    exact ⟨rfl, le_rfl⟩
  | enableDeferredAutoResize cfg emits =>
    obtain ⟨g, hg, same⟩ := map_ok run
    obtain ⟨-, rfl⟩ := Prod.mk.inj same
    obtain ⟨sampler, -, -, rfl⟩ := configureAutoResize_spec hg
    exact ⟨rfl, le_rfl⟩
  | takeDeferredSignal =>
    obtain ⟨⟨signal, g⟩, hg, run⟩ := bind_ok run
    simp only [pure, Except.pure, Except.ok.injEq, Prod.mk.injEq] at run
    obtain ⟨-, rfl⟩ := run
    exact takeDeferredAutoResizeSignal_quiet hg
  | applyDeferredGrow target =>
    obtain ⟨g, hg, same⟩ := map_ok run
    obtain ⟨-, rfl⟩ := Prod.mk.inj same
    have grown := applyDeferredAutoResizeGrow_grown hg
    exact ⟨grown.history, grown.later⟩
  | handleDeferredResize =>
    obtain ⟨g, hg, same⟩ := map_ok run
    obtain ⟨-, rfl⟩ := Prod.mk.inj same
    obtain ⟨⟨signal, m⟩, taken, applied⟩ := bind_ok hg
    obtain ⟨history, later⟩ := takeDeferredAutoResizeSignal_quiet taken
    cases signal with
    | some target =>
      have grown := applyDeferredAutoResizeGrow_grown applied
      exact ⟨grown.history.trans history, later.trans grown.later⟩
    | none =>
      simp only [pure, Except.pure, Except.ok.injEq] at applied
      exact applied ▸ ⟨history, later⟩

theorem Recorded.step (sep : Separated prf K keys) (recorded : Recorded prf keys h) {op : TreeOp K V}
    (keyed : op.Keyed prf keys) {out : Option V} (run : h.step math op = .ok (out, h')) :
    Recorded prf keys h' := by
  cases op with
  | append key val =>
    obtain ⟨g, hg, same⟩ := map_ok run
    obtain ⟨-, rfl⟩ := Prod.mk.inj same
    exact recorded.append keyed hg
  | appendBatch updates =>
    obtain ⟨g, hg, same⟩ := map_ok run
    obtain ⟨-, rfl⟩ := Prod.mk.inj same
    exact recorded.batch keyed hg
  | readTotal key =>
    obtain ⟨⟨v, g⟩, hg, run⟩ := bind_ok run
    simp only [pure, Except.pure, Except.ok.injEq, Prod.mk.injEq] at run
    obtain ⟨-, rfl⟩ := run
    exact recorded.readTotal sep keyed hg
  | _ =>
    obtain ⟨moves, -⟩ := step_reshuffle run (fun _ _ => by simp) (fun _ => by simp) fun _ => by simp
    obtain ⟨history, later⟩ := step_quiet run (fun _ _ => by simp) (fun _ => by simp) fun _ => by simp
    exact recorded.quiet (moves.inv recorded.inv) moves.prf later history (moves.mass_eq recorded.inv)

theorem Recorded.run (sep : Separated prf K keys) (recorded : Recorded prf keys h) {ops : List (TreeOp K V)}
    (keyed : ∀ op ∈ ops, op.Keyed prf keys) {outs : List (Option V)} (run : h.run math ops = .ok (outs, h')) :
    Recorded prf keys h' := by
  induction ops generalizing h outs with
  | nil =>
    simp only [ObliviousHistogram.run, Except.ok.injEq, Prod.mk.injEq] at run
    exact run.2 ▸ recorded
  | cons op ops ih =>
    obtain ⟨out, outs', g, hstep, htail, -⟩ := run_cons run
    exact ih (recorded.step sep (keyed op (.head _)) hstep) (fun op hop => keyed op (.tail _ hop)) htail

theorem Recorded.new {cap : Nat} (start : new cap prf = .ok h) : Recorded prf keys h := by
  obtain ⟨inv, contents, hprf, trace, -⟩ := new_spec start
  refine ⟨inv, hprf, fun k _ => ?_, fun k _ e he => ?_⟩
  · rw [contents, trace]
    rfl
  · rw [trace] at he
    simp [historyOf, firstEpoch] at he

end Steps
end ObliviousHistogram

namespace ObliviousHistogram

/-- The states of the runs of a new tree over `keys`, those inside an insertion included: after the
insertion of a slot or of a chunk, before its eviction, and after that. -/
inductive Reached [Add V] [Inhabited V] (math : ResizeMath) (cap : Nat) (prf : Aes128) (keys : List UInt8 → Prop) :
    ObliviousHistogram Z K A S V → Prop
  | run {ops : List (TreeOp K V)} {outs : List (Option V)} {h : ObliviousHistogram Z K A S V}
      (keyed : ∀ op ∈ ops, op.Keyed prf keys) (run : runNew math cap prf ops = .ok (outs, h)) : Reached math cap prf keys h
  | inserted {h : ObliviousHistogram Z K A S V} {tag : UInt64} {val : V} {payload : Vector UInt8 K}
      {stash : ObliviousStash Z K S V} (before : Reached math cap prf keys h)
      (known : tag ≠ 0 → keyed prf keys (tag, payload)) (run : h.stash.insert tag h.epoch val payload = .ok stash) :
      Reached math cap prf keys
        ((({ h with stash, appendCtr := h.appendCtr + 1 } : ObliviousHistogram Z K A S V).logStored tag payload).log .slot)
  | chunk {h : ObliviousHistogram Z K A S V} {updates : List (PreparedUpdate K V)}
      {stash : ObliviousStash Z K S V} (before : Reached math cap prf keys h)
      (known : KnownUpdates (keyed prf keys) updates)
      (run : h.stash.insertBatch (updates.map fun u => (u.1, h.epoch, u.2.1, u.2.2.1, u.2.2.2)) = .ok stash) :
      Reached math cap prf keys ({ h with stash, appendCtr := h.appendCtr + updates.length }.logSlots updates)
  | evicted {h h' : ObliviousHistogram Z K A S V} (before : Reached math cap prf keys h)
      (run : h.evictAfterInsert math = .ok h') : Reached math cap prf keys h'

theorem Reached.recorded [Add V] [Inhabited V] {cap : Nat} {prf : Aes128} {keys : List UInt8 → Prop}
    {h : ObliviousHistogram Z K A S V} (sep : Separated prf K keys) (reached : Reached math cap prf keys h) :
    Recorded prf keys h := by
  induction reached with
  | run keyed run =>
    obtain ⟨h₀, start, run⟩ := bind_ok run
    exact (Recorded.new start).run sep keyed run
  | inserted _ known run ih =>
    refine ih.fill (inserted_filled ih.inv known run) fun b hb => ?_
    rw [List.mem_singleton.mp (mem_reals.mp hb).1]
  | chunk _ known run ih => exact ih.fill (chunk_filled ih.inv known run _) (preparedBlocks_epoch _ _)
  | evicted _ run ih => exact ih.evict run

end ObliviousHistogram

/-- In every run of a new tree, an eviction adds to the stored `c_sum`, before it is checked, the
number of keys of its leaf that have been appended since their last read, for the first
time in the current epoch. -/
theorem counts_new_keys [Add V] [Inhabited V] {cap : Nat} {prf : Aes128} {keys : List UInt8 → Prop}
    (sep : Separated prf K keys) {h h' : ObliviousHistogram Z K A S V} (reached : Reached math cap prf keys h)
    {auto : AutoResizeState} (enabled : h.autoResize = some auto) (run : h.evictAfterInsert math = .ok h') :
    let leaf := evictLeafAt h.height h.evictCtr
    ∃ count, CountsNew prf K keys h.trace h.height leaf h.epoch count ∧
      (∃ g, h.evictPrepared.writePath leaf = .ok g ∧ g.updatePeakOverflow.autoResize = some { auto with
          cSum := auto.cSum + count
          evictionsSinceCheck := auto.evictionsSinceCheck + 1 } ∧
        g.updatePeakOverflow.checkAndMaybeResizePostEviction math = .ok h') ∧
      historyOf h'.trace = .counted h.height leaf h.epoch auto.cSum (auto.cSum + count) :: historyOf h.trace := by
  intro leaf
  have recorded := reached.recorded sep
  obtain ⟨ks, nodup, length, mem⟩ := recorded.evictCount sep
  refine ⟨h.evictCount, ⟨ks, nodup, length, fun k => ?_⟩, ?_, ?_⟩
  · rw [mem, firstEpoch_historyOf]
  · obtain ⟨g, written, check⟩ := evictAfterInsert_spec run
    refine ⟨g, written, ?_, check⟩
    rw [(updatePeakOverflow_still g).autoResize, (writePath_still written).autoResize, (evictPrepared_spec h).autoResize,
      (evictPrepared_spec h).stash, enabled]
    rfl
  · rw [evictAfterInsert_history run, enabled]
    rfl

/-- After the growth the key `[2]` is new, `[1]` is not although it has been appended again. -/
theorem counts_new_keys_after_growth :
    ∃ (h h' : ObliviousHistogram 1 1 1 4 Nat) (auto : AutoResizeState) (count : Nat),
      Reached .constant 2 id (fun k => k = [1] ∨ k = [2]) h ∧ h.autoResize = some auto ∧
        h.evictAfterInsert .constant = .ok h' ∧ auto.cSum = 0 ∧ count = 1 ∧
        CountsNew id 1 (fun k => k = [1] ∨ k = [2]) h.trace h.height (evictLeafAt h.height h.evictCtr) h.epoch count := by
  let ops : List (TreeOp 1 Nat) := [.enableDeferredAutoResize ⟨1, 1, 0.01, 0⟩ false, .append [1] 5, .grow,
    .append [2] 6, .append [1] 7, .append [2] 8]
  let run : Except Panic (List (Option Nat) × ObliviousHistogram 1 1 1 4 Nat) := runNew .constant 2 id ops
  let filled (h : ObliviousHistogram 1 1 1 4 Nat) (stash : ObliviousStash 1 1 4 Nat) : ObliviousHistogram 1 1 1 4 Nat :=
    (({ h with stash, appendCtr := h.appendCtr + 1 } : ObliviousHistogram 1 1 1 4 Nat).logStored (prfTag id [2])
      (copyPrefix 1 [2])).log .slot
  let sums (h : ObliviousHistogram 1 1 1 4 Nat) : Option Nat := h.autoResize.map AutoResizeState.cSum
  have computed : (run.toOption.bind fun r => (r.2.stash.insert (prfTag id [2]) r.2.epoch 9 (copyPrefix 1 [2])).toOption.bind
      fun stash => ((filled r.2 stash).evictAfterInsert .constant).toOption.map fun h' =>
        (sums (filled r.2 stash), (historyOf h'.trace)[0]?)) = some (some 0, some (.counted 2 4 1 0 1)) := by decide +kernel
  obtain ⟨r, ran, computed⟩ := Option.bind_eq_some_iff.mp computed
  obtain ⟨stash, inserted, computed⟩ := Option.bind_eq_some_iff.mp computed
  obtain ⟨h', evicted, computed⟩ := Option.map_eq_some_iff.mp computed
  obtain ⟨sum, event⟩ := Prod.mk.inj computed
  obtain ⟨auto, enabled, zero⟩ := Option.map_eq_some_iff.mp sum
  have keyed : ∀ op ∈ ops, op.Keyed id fun k => k = [1] ∨ k = [2] := by simp [ops, TreeOp.Keyed]
  have reached : Reached .constant 2 id (fun k => k = [1] ∨ k = [2]) (filled r.2 stash) :=
    .inserted (.run keyed (eq_ok_of_toOption ran)) (fun _ => ⟨[2], .inr rfl, rfl⟩) (eq_ok_of_toOption inserted)
  obtain ⟨count, counts, -, history⟩ := counts_new_keys separated_pair reached enabled (eq_ok_of_toOption evicted)
  rw [history] at event
  obtain ⟨-, -, -, -, one⟩ := Event.counted.inj (Option.some.inj event)
  rw [zero, Nat.zero_add] at one
  exact ⟨_, h', auto, count, reached, enabled, eq_ok_of_toOption evicted, zero, one, counts⟩

end Roga
