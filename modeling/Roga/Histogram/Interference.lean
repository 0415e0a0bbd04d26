import Roga.Histogram.Totals

/-! Two keys with different tags and what they do to each other. -/
namespace Roga
open Ct Reals ObliviousStash ObliviousHistogram
variable {Z K A S : Nat} {V : Type}

/-- An operation made under a key. -/
def TreeOp.under (key : List UInt8) : TreeOp K V → Bool
  | .append k _ => decide (k = key)
  | .readTotal k => decide (k = key)
  | _ => false

def TreeOp.reads (key : List UInt8) : TreeOp K V → Bool
  | .readTotal k => decide (k = key)
  | _ => false

/-- What the reads of a key returned. -/
def readsOf (key : List UInt8) : List (TreeOp K V) → List (Option V) → List (Option V)
  | op :: ops, out :: outs => if op.reads key then out :: readsOf key ops outs else readsOf key ops outs
  | _, _ => []

/-- In runs over two keys the reads of `k2` return what the operations under
`k2` alone determine. -/
def NoInterference (K : Nat) (prf : Aes128) (k1 k2 : List UInt8) : Prop :=
  ∀ (Z A S : Nat) (V : Type) [AddCommSemigroup V] [Inhabited V] (math : ResizeMath) (cap : Nat)
    (ops ops' : List (TreeOp K V)) (outs outs' : List (Option V)) (h h' : ObliviousHistogram Z K A S V),
    (∀ op ∈ ops, op.Over fun k => k = k1 ∨ k = k2) → (∀ op ∈ ops', op.Over fun k => k = k1 ∨ k = k2) →
    runNew math cap prf ops = .ok (outs, h) → runNew math cap prf ops' = .ok (outs', h') →
    ops.filter (TreeOp.under k2) = ops'.filter (TreeOp.under k2) →
    readsOf k2 ops outs = readsOf k2 ops' outs'

section Totals
variable [Add V] [Inhabited V]

theorem onTotals_of_not_under {key : List UInt8} {op : TreeOp K V} (off : op.under key = false)
    (appended : List UInt8 → List V) : (op.onTotals appended).2 key = appended key := by
  cases op with
  | append k val =>
    exact Function.update_of_ne (fun same => of_decide_eq_false off same.symm) _ _
  | readTotal k =>
    exact Function.update_of_ne (fun same => of_decide_eq_false off same.symm) _ _
  | _ => rfl

omit [Add V] [Inhabited V] in
theorem reads_of_not_under {key : List UInt8} {op : TreeOp K V} (off : op.under key = false) :
    op.reads key = false := by
  cases op with
  | readTotal k => exact off
  | _ => rfl

theorem onTotals_of_under {key : List UInt8} {op : TreeOp K V} (on : op.under key = true)
    {appended appended' : List UInt8 → List V} (same : appended key = appended' key) :
    (op.onTotals appended).1 = (op.onTotals appended').1 ∧
      (op.onTotals appended).2 key = (op.onTotals appended').2 key := by
  cases op with
  | append k val =>
    obtain rfl := of_decide_eq_true on
    simp [TreeOp.onTotals, same]
  | readTotal k =>
    obtain rfl := of_decide_eq_true on
    simp [TreeOp.onTotals, same]
  | _ => simp [TreeOp.under] at on

/-- The map returns for a key what the operations under it determine. -/
theorem readsOf_totalsRun (key : List UInt8) (ops : List (TreeOp K V))
    {appended appended' : List UInt8 → List V} (same : appended key = appended' key) :
    readsOf key ops (totalsRun appended ops) = readsOf key (ops.filter (TreeOp.under key))
      (totalsRun appended' (ops.filter (TreeOp.under key))) := by
  induction ops generalizing appended appended' with
  | nil => rfl
  | cons op ops ih =>
    cases on : op.under key with
    | false =>
      rw [List.filter_cons_of_neg (by simp [on]), totalsRun, readsOf, if_neg (by simp [reads_of_not_under on])]
      exact ih ((onTotals_of_not_under on appended).trans same)
    | true =>
      obtain ⟨out, next⟩ := onTotals_of_under on same
      rw [List.filter_cons_of_pos on, totalsRun, totalsRun, readsOf, readsOf, out, ih next]

end Totals

theorem separated_of_ne {prf : Aes128} {k1 k2 : List UInt8} (real1 : prfTag prf k1 ≠ 0)
    (real2 : prfTag prf k2 ≠ 0) (tags : identityBits (prfTag prf k1) ≠ identityBits (prfTag prf k2))
    (prefixes : copyPrefix K k1 ≠ copyPrefix K k2) : Separated prf K fun k => k = k1 ∨ k = k2 := by
  refine ⟨?_, ?_, ?_⟩
  · rintro k k' (rfl | rfl) (rfl | rfl) same
    exacts [rfl, absurd same prefixes, absurd same.symm prefixes, rfl]
  · rintro k (rfl | rfl)
    exacts [real1, real2]
  · rintro k k' (rfl | rfl) (rfl | rfl) same
    exacts [rfl, absurd same tags, absurd same.symm tags, rfl]

section Lone
variable [AddCommSemigroup V] [Inhabited V] {known : UInt64 × Vector UInt8 K → Prop}
  {h : ObliviousHistogram Z K A S V} {math : ResizeMath}

omit [AddCommSemigroup V] in
/-- A stash without real blocks is written back without an overflow. -/
theorem writeToPath_of_dummies {stash : ObliviousStash Z K S V}
    (empty : ∀ b ∈ stash.blocks, b.isReal = false) (room : stash.pathSize < stash.blocks.length)
    (memory : List (OramBlock K V)) (position : TreeIndex) :
    ∃ r, stash.writeToPath memory position = .ok r := by
  have idle : ∀ (blocks : List (OramBlock K V)) (state : List Nat × Nat),
      (∀ b ∈ blocks, b.isReal = false) →
      blocks.foldl (assignBlock Z position (ctDepth position)) state = state := by
    intro blocks state dummies
    induction blocks with
    | nil => rfl
    | cons b blocks ih =>
      rw [List.foldl_cons, assignBlock_dummy (dummies b (.head _))]
      exact ih fun c hc => dummies c (.tail _ hc)
  rw [writeToPath]
  simp only [idle _ _ empty]
  rw [if_neg (by omega)]
  exact ⟨_, rfl⟩

/-- A tree that holds no other payload and nothing off the path returns its whole mass. -/
theorem readPreparedTotal_lone (inv : h.Inv known) (identified : Identified known) (room : 0 < S)
    {tag : UInt64} {payload : Vector UInt8 K} (lone : ∀ b ∈ h.contents, b.payload = payload)
    (none : mass (AddHom.id V) payload (h.rest (toLeaf tag h.height)) = 0) :
    ∃ h', h.readPreparedTotal tag payload = .ok (readValue (mass (AddHom.id V) payload h.contents).values, h') := by
  obtain ⟨low, high⟩ := toLeaf_bounds tag inv.shape.height_le
  obtain ⟨size, length, ids, -⟩ := mergedStash_spec low high inv.shape
  have empty : ∀ b ∈ ((h.mergedStash (toLeaf tag h.height)).readAndRemove payload).2.2.blocks,
      b.isReal = false := by
    refine reals_eq_nil.mp ?_
    have blocks : ((h.mergedStash (toLeaf tag h.height)).readAndRemove payload).2.2.blocks = _ :=
      readAndRemoveLoop_blocks payload _ _ _
    rw [blocks, reals_removed, List.filter_eq_nil_iff]
    intro b hb
    obtain ⟨a, ha, same⟩ := ids b hb
    have mine := lone a ((contents_perm low high rfl).mem_iff.mpr (List.mem_append_right _ ha))
    have pay : b.payload = a.payload := congrArg Prod.snd same.symm
    simpa using pay.trans mine
  have slots := inv.shape.slots
  have fits : ((h.mergedStash (toLeaf tag h.height)).readAndRemove payload).2.2.pathSize <
      ((h.mergedStash (toLeaf tag h.height)).readAndRemove payload).2.2.blocks.length := by
    have blocks : ((h.mergedStash (toLeaf tag h.height)).readAndRemove payload).2.2.blocks = _ :=
      readAndRemoveLoop_blocks payload _ _ _
    have path : ((h.mergedStash (toLeaf tag h.height)).readAndRemove payload).2.2.pathSize =
      h.stash.pathSize := size
    rw [blocks, List.length_map, length, path]
    omega
  obtain ⟨⟨stash, memory⟩, written⟩ := writeToPath_of_dummies empty fits h.physicalMemory
    (toLeaf tag h.height)
  have ⟨g, written⟩ : ∃ g, (h.removedPath (toLeaf tag h.height) payload).writePath (toLeaf tag h.height) =
      .ok g := by
    refine ⟨{ h.removedPath (toLeaf tag h.height) payload with stash, physicalMemory := memory }, ?_⟩
    change Except.bind (((h.mergedStash (toLeaf tag h.height)).readAndRemove payload).2.2.writeToPath
      h.physicalMemory (toLeaf tag h.height)) _ = _
    rw [written]
    rfl
  have run : ∃ v h', h.readPreparedTotal tag payload = .ok (v, h') := by
    refine ⟨((h.mergedStash (toLeaf tag h.height)).readAndRemove payload).1, g.updatePeakOverflow, ?_⟩
    change Except.bind ((h.removedPath (toLeaf tag h.height) payload).writePath (toLeaf tag h.height)) _ = _
    rw [written]
    rfl
  obtain ⟨v, h', run⟩ := run
  exact ⟨h', by rw [run, readPreparedTotal_value inv identified none run]⟩

end Lone

section Shared
variable {prf : Aes128} {k1 k2 : List UInt8} {math : ResizeMath}

/-- A new tree of one level with two insertions between evictions. -/
def smallTree (prf : Aes128) : ObliviousHistogram 1 K 2 1 Nat where
  physicalMemory := List.replicate 4 OramBlock.dummy
  stash := ObliviousStash.new 2
  height := 1
  epoch := 0
  prf
  appendCtr := 0
  evictCtr := 0
  sweepEnd := 0
  autoResize := none
  peakOverflow := 0
  trace := []

theorem new_smallTree (prf : Aes128) : new 2 prf = .ok (smallTree (K := K) prf) := rfl

/-- Without an eviction the tree itself stays empty. -/
theorem smallTree_append (math : ResizeMath) (prf : Aes128) (key : List UInt8) :
    ∃ stash, (smallTree (K := K) prf).stash.insert (prfTag prf key) 0 1 (copyPrefix K key) = .ok stash ∧
      (smallTree prf).append math key 1 = .ok (({ smallTree prf with stash, appendCtr := 1 }.logStored (prfTag prf key)
        (copyPrefix K key)).log .slot) := by
  have free : (OramBlock.dummy : OramBlock K Nat) ∈ (smallTree prf).stash.overflowSlots := .head _
  obtain ⟨stash, inserted⟩ := insert_ok (prfTag prf key) 0 1 (copyPrefix K key) ⟨_, free, rfl⟩
  refine ⟨stash, inserted, ?_⟩
  change Except.bind ((smallTree prf).stash.insert (prfTag prf key) 0 1 (copyPrefix K key)) _ = _
  rw [inserted]
  rfl

theorem rest_of_empty {h : ObliviousHistogram Z K A S V} (empty : ∀ b ∈ h.physicalMemory, b.isReal = false)
    (leaf : TreeIndex) : h.rest leaf = [] :=
  List.flatMap_eq_nil_iff.mpr fun _ _ => reals_eq_nil.mpr fun b hb =>
    empty b (List.mem_of_mem_drop (List.mem_of_mem_take hb))

theorem smallTree_empty (prf : Aes128) : ∀ b ∈ (smallTree (K := K) prf).physicalMemory, b.isReal = false :=
  fun _ hb => List.eq_of_mem_replicate hb ▸ rfl

theorem run_read {h : ObliviousHistogram Z K A S V} [Add V] [Inhabited V] {key : List UInt8} {v : V}
    {h' : ObliviousHistogram Z K A S V} (read : h.readTotal key = .ok (v, h')) :
    h.run math [.readTotal key] = .ok ([some v], h') := by
  rw [run, step, read]
  rfl

/-- A read of an absent key returns what was appended under a key with its prefix. -/
theorem smallTree_interference (math : ResizeMath) (real : prfTag prf k1 ≠ 0)
    (prefixes : copyPrefix K k1 = copyPrefix K k2) :
    (∃ h, runNew math 2 prf [.readTotal k2] = .ok ([some 0], (h : ObliviousHistogram 1 K 2 1 Nat))) ∧
      ∃ h, runNew math 2 prf [.append k1 1, .readTotal k2] =
        .ok ([none, some 1], (h : ObliviousHistogram 1 K 2 1 Nat)) := by
  have single : Identified fun id => id = (prfTag prf k1, copyPrefix K k1) := by
    rintro - - rfl rfl
    simp
  obtain ⟨inv, nothing, -⟩ := new_spec (new_smallTree (K := K) prf)
  constructor
  · obtain ⟨h, read⟩ := readPreparedTotal_lone inv single Nat.one_pos
      (show ∀ b ∈ (smallTree prf).contents, b.payload = copyPrefix K k2 by simp [nothing]) (by rw [rest_of_empty (smallTree_empty prf), mass_nil])
    rw [nothing] at read
    exact ⟨h, run_read read⟩
  · obtain ⟨stash, inserted, appended⟩ := smallTree_append (K := K) math prf k1
    obtain ⟨minv, contents⟩ := insert_step inv (fun _ => rfl) inserted
    have inv' : ((({ smallTree prf with stash, appendCtr := 1 } : ObliviousHistogram 1 K 2 1 Nat).logStored
        (prfTag prf k1) (copyPrefix K k1)).log .slot).Inv
        fun id => id = (prfTag prf k1, copyPrefix K k1) := minv.congr rfl rfl rfl
    have block : reals [(⟨prfTag prf k1, 0, 1, copyPrefix K k1⟩ : OramBlock K Nat)] = [⟨prfTag prf k1, 0, 1, copyPrefix K k1⟩] :=
      reals_cons_real (OramBlock.isReal_iff.mpr real)
    rw [nothing, List.append_nil, block, List.perm_singleton] at contents
    have held : ((({ smallTree prf with stash, appendCtr := 1 } : ObliviousHistogram 1 K 2 1 Nat).logStored
        (prfTag prf k1) (copyPrefix K k1)).log .slot).contents = [⟨prfTag prf k1, 0, 1, copyPrefix K k1⟩] := contents
    obtain ⟨h, read⟩ := readPreparedTotal_lone inv' single Nat.one_pos
      (fun b hb => by
        rw [held, List.mem_singleton] at hb
        rw [hb, prefixes])
      (by rw [rest_of_empty (by exact smallTree_empty prf), mass_nil])
    rw [held, mass_cons, mass_nil, add_zero, weight_real (OramBlock.isReal_iff.mpr real) prefixes] at read
    refine ⟨h, ?_⟩
    change Except.bind ((smallTree prf).append math k1 1 >>= fun g => .ok (none, g)) _ = _
    rw [appended]
    change Except.bind (run _ _ _) _ = _
    rw [run_read read]
    rfl

theorem not_noInterference (real : prfTag prf k1 ≠ 0) (other : k1 ≠ k2)
    (prefixes : copyPrefix K k1 = copyPrefix K k2) : ¬ NoInterference K prf k1 k2 := by
  intro claim
  obtain ⟨⟨h, alone⟩, h', shared⟩ := smallTree_interference .constant real prefixes
  have same := claim 1 2 1 Nat .constant 2 _ _ _ _ h h' (by simp [TreeOp.Over]) (by simp [TreeOp.Over]) alone
    shared (by simp [TreeOp.under, other])
  simp [readsOf, TreeOp.reads] at same

end Shared

/-- The reads of `k2` are independent of `k1` exactly when the keys do not truncate to one payload. -/
theorem noInterference_iff {prf : Aes128} {k1 k2 : List UInt8} (real1 : prfTag prf k1 ≠ 0)
    (real2 : prfTag prf k2 ≠ 0) (tags : identityBits (prfTag prf k1) ≠ identityBits (prfTag prf k2)) :
    NoInterference K prf k1 k2 ↔ copyPrefix K k1 ≠ copyPrefix K k2 := by
  constructor
  · intro claim prefixes
    exact not_noInterference real1 (fun same => tags (by rw [same])) prefixes claim
  · intro prefixes Z A S V _ _ math cap ops ops' outs outs' h h' hops hops' run run' same
    have sep := separated_of_ne real1 real2 tags prefixes
    obtain ⟨h₀, start, run⟩ := bind_ok run
    obtain ⟨h₀', start', run'⟩ := bind_ok run'
    rw [((Holds.new start).run sep hops run).1, ((Holds.new start').run sep hops' run').1,
      readsOf_totalsRun k2 ops rfl, readsOf_totalsRun k2 ops' rfl, same]

theorem noInterference_iff_one_byte :
    NoInterference 1 id [1] [2] ↔ copyPrefix 1 [1] ≠ copyPrefix 1 [2] :=
  noInterference_iff (by decide +kernel) (by decide +kernel) (by decide +kernel)

/-- Sixteen and seventeen zero bytes, under a cipher that adds one to every byte. -/
theorem interference_of_truncated_key :
    let prf : Aes128 := fun block => block.map (· + 1)
    prfTag prf (List.replicate 16 0) ≠ 0 ∧ prfTag prf (List.replicate 17 0) ≠ 0 ∧
      identityBits (prfTag prf (List.replicate 16 0)) ≠ identityBits (prfTag prf (List.replicate 17 0)) ∧
      ¬ NoInterference 16 prf (List.replicate 16 0) (List.replicate 17 0) := by
  intro prf
  have real : prfTag prf (List.replicate 16 0) ≠ 0 := by decide +kernel
  exact ⟨real, by decide +kernel, by decide +kernel,
    not_noInterference real (by decide) (by decide +kernel)⟩

end Roga
