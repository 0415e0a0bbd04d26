import Roga.Histogram.Stash
import Roga.Oblivious.Router

/-! `write_to_path`: the greedy level assignment, in the order of the sort key,
is the order in which the compacted blocks are laid out. -/
namespace Roga
open Ct Reals ObliviousStash
variable {K : Nat} {V : Type}

section Levels

theorem xor_toLeaf_size (tag : UInt64) {leaf height : Nat} (low : 2 ^ height ≤ leaf)
    (high : leaf < 2 ^ (height + 1)) (hh : height ≤ 31) :
    (leaf ^^^ toLeaf tag height).size ≤ height := by
  rw [xor_toLeaf tag low high hh, Nat.size_le, Nat.div_lt_iff_lt_mul (Nat.two_pow_pos _), ← Nat.pow_add]
  exact (rank_lt tag leaf hh).trans_eq (congrArg _ (by omega))

theorem deepestSharedLevel_eq (tag : UInt64) {leaf height : Nat} (low : 2 ^ height ≤ leaf)
    (high : leaf < 2 ^ (height + 1)) (hh : height ≤ 31) :
    deepestSharedLevel leaf tag height = height - (leaf ^^^ toLeaf tag height).size := by
  have small := xor_toLeaf_size tag low high hh
  rw [deepestSharedLevel, leadingZeros]
  omega

theorem deepestSharedLevel_le (tag : UInt64) {leaf height : Nat} (low : 2 ^ height ≤ leaf)
    (high : leaf < 2 ^ (height + 1)) (hh : height ≤ 31) : deepestSharedLevel leaf tag height ≤ height := by
  rw [deepestSharedLevel_eq tag low high hh]
  exact Nat.sub_le _ _

/-- A level is legal exactly when the path node there is the tag's own ancestor. -/
theorem le_deepestSharedLevel (tag : UInt64) {leaf height depth : Nat} (low : 2 ^ height ≤ leaf)
    (high : leaf < 2 ^ (height + 1)) (hh : height ≤ 31) (hd : depth ≤ height) :
    depth ≤ deepestSharedLevel leaf tag height ↔ toLeaf tag depth = ctNodeOnPath leaf depth height := by
  have small := xor_toLeaf_size tag low high hh
  have shared := shared_iff (a := leaf) (b := toLeaf tag height) hd
  rw [toLeaf_shiftRight tag hd hh] at shared
  rw [deepestSharedLevel_eq tag low high hh, ctNodeOnPath, eq_comm, ← shared]
  omega

theorem deepestSharedLevel_antitone {a b : UInt64} {leaf height : Nat} (low : 2 ^ height ≤ leaf)
    (high : leaf < 2 ^ (height + 1)) (hh : height ≤ 31) (h : rank a leaf height ≤ rank b leaf height) :
    deepestSharedLevel leaf b height ≤ deepestSharedLevel leaf a height := by
  rw [deepestSharedLevel_eq a low high hh, deepestSharedLevel_eq b low high hh,
    xor_toLeaf a low high hh, xor_toLeaf b low high hh]
  exact Nat.sub_le_sub_left (Nat.size_le_size (Nat.div_le_div_right h)) _

end Levels

section Greedy
variable {Z : Nat}

/-- The deepest level up to `bound` with a free slot. -/
def chooseLevel (Z height : Nat) (counts : List Nat) (bound : Nat) : Option Nat :=
  (List.range (height + 1)).reverse.find? fun l => decide (l < bound + 1) && decide (counts.getD l 0 < Z)

theorem set_getD_self (counts : List Nat) (l : Nat) : counts.set l (counts.getD l 0) = counts := by
  apply List.ext_getElem?
  intro i
  rw [List.getElem?_set, List.getD_eq_getElem?_getD]
  split
  · rename_i same
    subst same
    split
    · rename_i inside
      rw [List.getElem?_eq_getElem inside, Option.getD_some]
    · rename_i outside
      exact (List.getElem?_eq_none (Nat.le_of_not_lt outside)).symm
  · rfl

/-- Once a block is placed, or when it is a dummy, the remaining levels do nothing. -/
theorem foldl_assignLevel_done (b : Nat) (real assigned : Bool) (counts : List Nat) (levels : List Nat)
    (done : (!assigned && real) = false) :
    levels.foldl (assignLevel Z b real.toUInt8) (counts, assigned.toUInt8) = (counts, assigned.toUInt8) := by
  induction levels with
  | nil => rfl
  | cons l levels ih =>
    have off : ∀ p q : Bool, (p && q && !assigned && real) = false := fun p q => by
      rw [Bool.and_assoc (p && q), done, Bool.and_false]
    rw [List.foldl_cons, assignLevel]
    simp only [ctLtCount, ctNot_toUInt8, toUInt8_and, toUInt8_or, off, Bool.or_false, toUInt8_toNat,
      Bool.toNat_false, Nat.add_zero, set_getD_self]
    exact ih

theorem foldl_assignLevel (b : Nat) (counts : List Nat) (levels : List Nat) :
    levels.foldl (assignLevel Z b true.toUInt8) (counts, false.toUInt8) =
      match levels.find? fun l => decide (l < b + 1) && decide (counts.getD l 0 < Z) with
      | some l => (counts.set l (counts.getD l 0 + 1), true.toUInt8)
      | none => (counts, false.toUInt8) := by
  induction levels with
  | nil => rfl
  | cons l levels ih =>
    rw [List.foldl_cons, assignLevel]
    simp only [ctLtCount, ctNot_toUInt8, toUInt8_and, toUInt8_or, Bool.not_false, Bool.and_true,
      Bool.false_or, toUInt8_toNat]
    cases take : decide (l < b + 1) && decide (counts.getD l 0 < Z) with
    | true =>
      rw [List.find?_cons_of_pos (p := fun l => decide (l < b + 1) && decide (counts.getD l 0 < Z)) take]
      exact foldl_assignLevel_done b true true _ levels rfl
    | false =>
      rw [List.find?_cons_of_neg (p := fun l => decide (l < b + 1) && decide (counts.getD l 0 < Z))
        (Bool.not_eq_true _ ▸ take), Bool.toNat_false, Nat.add_zero, set_getD_self]
      exact ih

theorem assignBlock_dummy {position height : Nat} {block : OramBlock K V} (dummy : block.isReal = false)
    (state : List Nat × Nat) : assignBlock Z position height state block = state := by
  have real : ctIsReal block.tag = false.toUInt8 := dummy ▸ OramBlock.ctIsReal_isReal block
  rw [assignBlock]
  simp only [real]
  rw [show (0 : UInt8) = false.toUInt8 from rfl, foldl_assignLevel_done _ _ _ _ _ rfl]
  simp

theorem assignBlock_real {position height : Nat} {block : OramBlock K V} (hr : block.isReal = true)
    (state : List Nat × Nat) : assignBlock Z position height state block =
      match chooseLevel Z height state.1 (deepestSharedLevel position block.tag height) with
      | some l => (state.1.set l (state.1.getD l 0 + 1), state.2)
      | none => (state.1, state.2 + 1) := by
  have real : ctIsReal block.tag = true.toUInt8 := hr ▸ OramBlock.ctIsReal_isReal block
  rw [assignBlock]
  simp only [real]
  rw [show (0 : UInt8) = false.toUInt8 from rfl, foldl_assignLevel]
  rw [chooseLevel]
  split <;> simp

theorem chooseLevel_some {height bound l : Nat} {counts : List Nat}
    (h : chooseLevel Z height counts bound = some l) : l ≤ height ∧ l ≤ bound ∧ counts.getD l 0 < Z ∧
      ∀ l', l < l' → l' ≤ bound → l' ≤ height → Z ≤ counts.getD l' 0 := by
  induction height with
  | zero =>
    rw [chooseLevel, List.find?_eq_some_iff_append] at h
    obtain ⟨hp, as, bs, split, -⟩ := h
    have : l ∈ (List.range (0 + 1)).reverse := split ▸ List.mem_append_right _ List.mem_cons_self
    obtain rfl : l = 0 := by simpa using this
    simp only [Bool.and_eq_true, decide_eq_true_eq] at hp
    exact ⟨Nat.le_refl _, by omega, hp.2, fun l' _ _ _ => by omega⟩
  | succ height ih =>
    rw [chooseLevel, List.range_succ, List.reverse_append, List.reverse_singleton, List.singleton_append,
      List.find?_cons] at h
    split at h
    · rename_i take
      simp only [Bool.and_eq_true, decide_eq_true_eq] at take
      simp only [Option.some.injEq] at h
      subst h
      exact ⟨by omega, by omega, take.2, fun l' _ _ _ => by omega⟩
    · rename_i skip
      obtain ⟨h₁, h₂, h₃, h₄⟩ := ih h
      refine ⟨by omega, h₂, h₃, fun l' hl hb hh => ?_⟩
      by_cases last : l' = height + 1
      · subst last
        simp only [Bool.and_eq_false_iff, decide_eq_false_iff_not] at skip
        omega
      · exact h₄ l' hl hb (by omega)

theorem chooseLevel_none {height bound : Nat} {counts : List Nat}
    (h : chooseLevel Z height counts bound = none) :
    ∀ l ≤ height, l ≤ bound → Z ≤ counts.getD l 0 := by
  intro l hl hb
  have all := List.find?_eq_none.mp h l (by simp; omega)
  simp only [Bool.and_eq_true, decide_eq_true_eq] at all
  omega

/-- The blocks of the levels from `height` down to the root. -/
def layout (A : Nat → List (OramBlock K V)) : Nat → List (OramBlock K V)
  | 0 => A 0
  | height + 1 => A (height + 1) ++ layout A height

theorem layout_eq (A : Nat → List (OramBlock K V)) (height : Nat) :
    layout A height = (List.range (height + 1)).reverse.flatMap A := by
  induction height with
  | zero => simp [layout]
  | succ height ih =>
    rw [layout, ih, List.range_succ (n := height + 1), List.reverse_append, List.reverse_singleton,
      List.singleton_append, List.flatMap_cons]

theorem layout_eq_nil {A : Nat → List (OramBlock K V)} {height : Nat} (h : ∀ l ≤ height, A l = []) :
    layout A height = [] := by
  rw [layout_eq, List.flatMap_eq_nil_iff]
  intro l hl
  exact h l (Nat.lt_succ_iff.mp (List.mem_range.mp (List.mem_reverse.mp hl)))

theorem sublist_layout {A : Nat → List (OramBlock K V)} {height l : Nat} (hl : l ≤ height) :
    (A l).Sublist (layout A height) := by
  induction height with
  | zero =>
    obtain rfl : l = 0 := by omega
    exact .refl _
  | succ height ih =>
    by_cases last : l = height + 1
    · subst last
      exact List.sublist_append_left _ _
    · exact (ih (by omega)).trans (List.sublist_append_right _ _)

theorem layout_congr {A B : Nat → List (OramBlock K V)} {height : Nat} (h : ∀ l ≤ height, A l = B l) :
    layout A height = layout B height := by
  rw [layout_eq, layout_eq]
  exact List.flatMap_congr fun l hl =>
    h l (Nat.lt_succ_iff.mp (List.mem_range.mp (List.mem_reverse.mp hl)))

/-- Appending to a level that nothing lies below appends to the layout. -/
theorem layout_append {A : Nat → List (OramBlock K V)} {height l : Nat} (hl : l ≤ height)
    (below : ∀ l' < l, A l' = []) (b : OramBlock K V) :
    layout (Function.update A l (A l ++ [b])) height = layout A height ++ [b] := by
  induction height with
  | zero =>
    obtain rfl : l = 0 := by omega
    simp [layout]
  | succ height ih =>
    rw [layout, layout]
    by_cases last : l = height + 1
    · subst last
      have rest : layout (Function.update A (height + 1) (A (height + 1) ++ [b])) height = layout A height :=
        layout_congr fun l' hl' => Function.update_of_ne (by omega) _ _
      rw [rest, layout_eq_nil fun l' hl' => below l' (by omega), Function.update_self]
      simp
    · rw [Function.update_of_ne (by omega), ih (by omega), List.append_assoc]

/-- The assignment so far: `A` holds the blocks of each level and `O` the
overflow. Above a used level everything up to `bound`, the level of the last
block, is full, so later blocks never go deeper than it. -/
structure Placed (Z height : Nat) (level : OramBlock K V → Nat) (xs : List (OramBlock K V))
    (state : List Nat × Nat) (bound : Nat) (A : Nat → List (OramBlock K V)) (O : List (OramBlock K V)) :
    Prop where
  order : xs = layout A height ++ O
  tracked : height < state.1.length
  counts : ∀ l ≤ height, state.1.getD l 0 = (A l).length
  room : ∀ l ≤ height, (A l).length ≤ Z
  legal : ∀ l ≤ height, ∀ b ∈ A l, l ≤ level b
  overflow : state.2 = O.length
  above : ∀ l ≤ height, A l ≠ [] → ∀ l' ≤ height, l < l' → l' ≤ bound → (A l').length = Z
  spilled : O ≠ [] → ∀ l ≤ height, l ≤ bound → (A l).length = Z

theorem Placed.init {height bound : Nat} {level : OramBlock K V → Nat} (hh : height < 32) :
    Placed Z height level [] (List.replicate 32 0, 0) bound (fun _ => []) [] where
  order := by rw [List.append_nil, layout_eq_nil fun _ _ => rfl]
  tracked := by simpa using hh
  counts l hl := by
    rw [List.getD_eq_getElem?_getD, List.getElem?_replicate, if_pos (by omega)]
    rfl
  room _ _ := Nat.zero_le _
  legal _ _ _ hb := absurd hb List.not_mem_nil
  overflow := rfl
  above _ _ h := absurd rfl h
  spilled h := absurd rfl h

variable {height position bound : Nat} {xs O : List (OramBlock K V)} {state : List Nat × Nat}
  {A : Nat → List (OramBlock K V)}

theorem Placed.step
    (placed : Placed Z height (fun b => deepestSharedLevel position b.tag height) xs state bound A O)
    {b : OramBlock K V} (hr : b.isReal = true) (hb : deepestSharedLevel position b.tag height ≤ bound) :
    ∃ A' O', Placed Z height (fun b => deepestSharedLevel position b.tag height) (xs ++ [b])
      (assignBlock Z position height state b) (deepestSharedLevel position b.tag height) A' O' := by
  rw [assignBlock_real hr]
  cases choice : chooseLevel Z height state.1 (deepestSharedLevel position b.tag height) with
  | none =>
    -- every legal level is full
    have full : ∀ l ≤ height, l ≤ deepestSharedLevel position b.tag height → (A l).length = Z :=
      fun l hl hlb => Nat.le_antisymm (placed.room l hl)
        (placed.counts l hl ▸ chooseLevel_none choice l hl hlb)
    refine ⟨A, O ++ [b], ?_, placed.tracked, placed.counts, placed.room, placed.legal, ?_,
      fun l _ _ l' hl' _ => full l' hl', fun _ => full⟩
    · rw [placed.order, List.append_assoc]
    · simp [placed.overflow]
  | some l =>
    obtain ⟨hl, hlb, free, deeper⟩ := chooseLevel_some choice
    have hcount := placed.counts l hl
    have below : ∀ l' < l, A l' = [] := fun l' hlt => by
      by_contra used
      have := placed.above l' (by omega) used l hl hlt (by omega)
      omega
    have dry : O = [] := by
      by_contra used
      have := placed.spilled used l hl (by omega)
      omega
    subst dry
    have other : ∀ l', l' ≠ l → Function.update A l (A l ++ [b]) l' = A l' :=
      fun l' h => Function.update_of_ne h _ _
    have self : Function.update A l (A l ++ [b]) l = A l ++ [b] := Function.update_self _ _ _
    refine ⟨Function.update A l (A l ++ [b]), [], ?_, ?_, fun l' hl' => ?_, fun l' hl' => ?_,
      fun l' hl' c hc => ?_, placed.overflow, fun l' hl' used l'' hl'' hlt hle => ?_, fun h => absurd rfl h⟩
    · rw [layout_append hl below, placed.order, List.append_nil, List.append_nil]
    · simpa using placed.tracked
    · have inside := placed.tracked
      rw [List.getD_eq_getElem?_getD, List.getElem?_set]
      by_cases same : l = l'
      · subst same
        rw [if_pos rfl, if_pos (by omega), Option.getD_some, self, hcount, List.length_append]
        rfl
      · rw [if_neg same, other l' (Ne.symm same), ← placed.counts l' hl', List.getD_eq_getElem?_getD]
    · by_cases same : l' = l
      · subst same
        rw [self, List.length_append]
        simp only [List.length_singleton]
        omega
      · rw [other l' same]
        exact placed.room l' hl'
    · by_cases same : l' = l
      · subst same
        rw [self] at hc
        rcases List.mem_append.mp hc with hc | hc
        · exact placed.legal l' hl' c hc
        · rw [List.mem_singleton.mp hc]
          exact hlb
      · rw [other l' same] at hc
        exact placed.legal l' hl' c hc
    · have above_l : l < l'' → (A l'').length = Z := fun h =>
        Nat.le_antisymm (placed.room l'' hl'') (placed.counts l'' hl'' ▸ deeper l'' h hle hl'')
      have lower : ¬ l' < l := fun h => used (by rw [other l' (by omega), below l' h])
      rw [other l'' (by omega)]
      exact above_l (by omega)

/-- The whole scan places the real blocks in order, when their levels never increase. -/
theorem Placed.run (blocks : List (OramBlock K V))
    (placed : Placed Z height (fun b => deepestSharedLevel position b.tag height) xs state bound A O)
    (fits : ∀ b ∈ reals blocks, deepestSharedLevel position b.tag height ≤ bound)
    (sorted : (reals blocks).Pairwise fun a b =>
      deepestSharedLevel position b.tag height ≤ deepestSharedLevel position a.tag height) :
    ∃ bound' A' O', Placed Z height (fun b => deepestSharedLevel position b.tag height)
      (xs ++ reals blocks) (blocks.foldl (assignBlock Z position height) state) bound' A' O' := by
  induction blocks generalizing xs state bound A O with
  | nil => exact ⟨bound, A, O, by simpa using placed⟩
  | cons b blocks ih =>
    rw [List.foldl_cons]
    cases hr : b.isReal with
    | false =>
      rw [reals_cons_dummy hr] at fits sorted ⊢
      rw [assignBlock_dummy hr]
      exact ih placed fits sorted
    | true =>
      rw [reals_cons_real hr] at fits sorted ⊢
      obtain ⟨A', O', next⟩ := placed.step hr (fits b (.head _))
      have tail := List.pairwise_cons.mp sorted
      obtain ⟨bound', A', O', done⟩ := ih next tail.1 tail.2
      exact ⟨bound', A', O', by rwa [List.append_assoc] at done⟩

end Greedy

section Layout
variable {Z : Nat}

/-- The flags of the layout: a prefix of every level bucket, then of the overflow. -/
def layoutFlags (Z height overflowLen : Nat) (A : Nat → List (OramBlock K V)) (O : List (OramBlock K V)) :
    List Bool :=
  (List.range (height + 1)).reverse.flatMap
    (fun l => (List.range Z).map fun slot => decide (slot < (A l).length)) ++
    (List.range overflowLen).map fun slot => decide (slot < O.length)

theorem layoutMarks_eq {height pathSize len : Nat} {counts : List Nat} {A : Nat → List (OramBlock K V)}
    (O : List (OramBlock K V)) (tracked : height < counts.length)
    (agree : ∀ l ≤ height, counts.getD l 0 = (A l).length) :
    buildLeafToRootLayoutMarks Z (counts.take (height + 1)) O.length pathSize len =
      marksFrom 0 (layoutFlags Z height (len - pathSize) A O) := by
  have levels : counts.take (height + 1) = (List.range (height + 1)).map fun l => (A l).length := by
    apply List.ext_getElem?
    intro i
    by_cases hi : i < height + 1
    · have at_i := agree i (by omega)
      rw [List.getD_eq_getElem?_getD, List.getElem?_eq_getElem (by omega), Option.getD_some] at at_i
      rw [List.getElem?_take_of_lt hi, List.getElem?_eq_getElem (by omega), List.getElem?_map,
        List.getElem?_range hi, Option.map_some, at_i]
    · rw [List.getElem?_eq_none (by rw [List.length_take]; omega),
        List.getElem?_eq_none (by rw [List.length_map, List.length_range]; omega)]
  rw [buildLeafToRootLayoutMarks, levels, ← List.map_reverse, List.flatMap_map, marksFrom, layoutFlags,
    List.map_append, List.map_flatMap]
  simp only [List.map_map]
  rfl

theorem layoutFlags_length (height overflowLen : Nat) (A : Nat → List (OramBlock K V))
    (O : List (OramBlock K V)) :
    (layoutFlags Z height overflowLen A O).length = (height + 1) * Z + overflowLen := by
  rw [layoutFlags, List.length_append, List.length_flatMap]
  simp

theorem layoutFlags_count {height overflowLen : Nat} {A : Nat → List (OramBlock K V)}
    {O : List (OramBlock K V)} (room : ∀ l ≤ height, (A l).length ≤ Z) (rest : O.length ≤ overflowLen) :
    (layoutFlags Z height overflowLen A O).count true = (layout A height ++ O).length := by
  rw [layoutFlags, List.count_append, count_prefixFlags rest, List.length_append, layout_eq,
    List.count_flatMap, List.length_flatMap]
  congr 2
  exact List.map_congr_left fun l hl => count_prefixFlags
    (room l (Nat.lt_succ_iff.mp (List.mem_range.mp (List.mem_reverse.mp hl))))

end Layout

/-- What a write-back leaves: the blocks of level `l` in the path bucket of
depth `l`, the other buckets as they were, and the rest in the overflow. -/
structure Written (Z height position : Nat) (before : ObliviousStash Z K S V)
    (memory : List (OramBlock K V)) (after : ObliviousStash Z K S V) (memory' : List (OramBlock K V))
    (A : Nat → List (OramBlock K V)) (O : List (OramBlock K V)) : Prop where
  order : reals before.blocks = layout A height ++ O
  legal : ∀ l ≤ height, ∀ b ∈ A l, toLeaf b.tag l = ctNodeOnPath position l height
  path : ∀ l ≤ height, reals (bucketAt Z memory' (ctNodeOnPath position l height)) = A l
  frame : ∀ n, (∀ l ≤ height, n ≠ ctNodeOnPath position l height) →
    bucketAt Z memory' n = bucketAt Z memory n
  memory_length : memory'.length = memory.length
  pathSize : after.pathSize = before.pathSize
  length : after.blocks.length = before.blocks.length
  path_region : ∀ b ∈ after.blocks.take after.pathSize, b.isReal = false
  overflow : reals after.overflowSlots = O
  sentinel : O.length < before.blocks.length - before.pathSize
  spilled : O.length = (before.blocks.foldl (assignBlock Z position height) (List.replicate 32 0, 0)).2

section WriteBack
variable [Inhabited V] {Z S height position : Nat} {stash after : ObliviousStash Z K S V}
  {memory memory' : List (OramBlock K V)}

/-- The slots of a write-back before they are copied out: the blocks of the scan in their level
buckets, leaf first, and the rest at the front of the overflow. -/
theorem writeToPath_layout (low : 2 ^ height ≤ position) (high : position < 2 ^ (height + 1)) (hh : height ≤ 31)
    (hpath : stash.pathSize = Z * (height + 1)) (hlen : stash.pathSize ≤ stash.blocks.length)
    (sorted : (reals stash.blocks).Pairwise fun a b => rank a.tag position height ≤ rank b.tag position height)
    (run : stash.writeToPath memory position = .ok (after, memory')) :
    ∃ bound A O out, Placed Z height (fun b => deepestSharedLevel position b.tag height) (reals stash.blocks)
        (stash.blocks.foldl (assignBlock Z position height) (List.replicate 32 0, 0)) bound A O ∧
      O.length < stash.blocks.length - stash.pathSize ∧ out.length = stash.blocks.length ∧
      flagsOf out = layoutFlags Z height (stash.blocks.length - stash.pathSize) A O ∧
      reals out = layout A height ++ O ∧
      after = { stash with blocks := List.replicate stash.pathSize OramBlock.dummy ++ out.drop stash.pathSize } ∧
      memory' = setBuckets Z (fun depth => ctNodeOnPath position depth height)
        (fun depth => bucketAt Z out (height - depth)) (List.range (height + 1)) memory := by
  have depth := ctDepth_of_bounds low high hh
  obtain ⟨bound, A, O, placed⟩ := Placed.run (Z := Z)
    stash.blocks (Placed.init (by omega))
    (fun b _ => deepestSharedLevel_le b.tag low high hh)
    (sorted.imp fun h => deepestSharedLevel_antitone low high hh h)
  rw [List.nil_append] at placed
  rw [writeToPath] at run
  simp only [depth] at run
  generalize stash.blocks.foldl (assignBlock Z position height) (List.replicate 32 0, 0) = state at *
  split at run
  · simp at run
  rename_i room
  rw [placed.overflow, layoutMarks_eq O placed.tracked placed.counts] at run
  rw [placed.overflow] at room
  simp only [Except.ok.injEq, Prod.mk.injEq] at run
  obtain ⟨rest, compacted, dummies⟩ := compactPayload_reals stash.blocks
  have sizes : (compactPayload stash.blocks (compactMarks stash.blocks)).length = stash.blocks.length :=
    compactPayload_length _ _
  have width : (layoutFlags Z height (stash.blocks.length - stash.pathSize) A O).length =
      (compactPayload stash.blocks (compactMarks stash.blocks)).length := by
    rw [layoutFlags_length, sizes, Nat.mul_comm, ← hpath]
    omega
  obtain ⟨flagged, ordered⟩ := distributePayload_reals compacted (fun b hb => (mem_reals.mp hb).2) dummies
    width (by rw [layoutFlags_count placed.room (by omega), placed.order])
  refine ⟨bound, A, O, _, placed, by omega, ?_, flagged, ordered.trans placed.order, run.1.symm, run.2.symm⟩
  rw [distributePayload_length, sizes]

theorem writeToPath_spec (low : 2 ^ height ≤ position)
    (high : position < 2 ^ (height + 1)) (hh : height ≤ 31) (hpath : stash.pathSize = Z * (height + 1))
    (hlen : stash.pathSize ≤ stash.blocks.length) (hmem : memory.length = 2 ^ (height + 1) * Z)
    (sorted : (reals stash.blocks).Pairwise fun a b => rank a.tag position height ≤ rank b.tag position height)
    (run : stash.writeToPath memory position = .ok (after, memory')) :
    ∃ A O, Written Z height position stash memory after memory' A O := by
  obtain ⟨bound, A, O, out, placed, room, outlen, flagged, ordered, rfl, rfl⟩ :=
    writeToPath_layout low high hh hpath hlen sorted run
  rw [layout_eq] at ordered
  obtain ⟨buckets, overflow⟩ := reals_chunks (Z := Z) (fun l _ => by simp)
    (fun l hl => count_prefixFlags
      (placed.room l (Nat.lt_succ_iff.mp (List.mem_range.mp (List.mem_reverse.mp hl)))))
    flagged ordered
  rw [List.length_reverse, List.length_range, Nat.mul_comm, ← hpath] at overflow
  have fits : ∀ d ∈ List.range (height + 1), ctNodeOnPath position d height * Z + Z ≤ memory.length :=
    fun d hd => by
      have inside := (ctNodeOnPath_bounds low high (Nat.lt_succ_iff.mp (List.mem_range.mp hd))).2
      rw [hmem]
      exact bucket_fits (inside.trans_le (Nat.pow_le_pow_right Nat.two_pos (List.mem_range.mp hd)))
  have widths : ∀ d ∈ List.range (height + 1), (bucketAt Z out (height - d)).length = Z := fun d _ =>
    bucketAt_length (by
      have := bucket_fits (Z := Z) (show height - d < height + 1 by omega)
      rw [Nat.mul_comm (height + 1), ← hpath] at this
      omega)
  have nodes : ((List.range (height + 1)).map fun d => ctNodeOnPath position d height).Nodup :=
    List.nodup_range.map_on fun d hd d' hd' same => ctNodeOnPath_inj low high
      (Nat.lt_succ_iff.mp (List.mem_range.mp hd)) (Nat.lt_succ_iff.mp (List.mem_range.mp hd')) same
  refine ⟨A, O, ⟨placed.order, fun l hl b hb => ?_, fun l hl => ?_, fun n hn => ?_, ?_, rfl, ?_, ?_, ?_, room, placed.overflow.symm⟩⟩
  · exact (le_deepestSharedLevel b.tag low high hh hl).mp (placed.legal l hl b hb)
  · rw [bucketAt_setBuckets fits widths nodes (List.mem_range.mpr (Nat.lt_succ_iff.mpr hl)),
      buckets (height - l) (by simp)]
    congr 1
    simp
    omega
  · exact bucketAt_setBuckets_ne fits widths fun d hd =>
      hn d (Nat.lt_succ_iff.mp (List.mem_range.mp hd))
  · exact setBuckets_length fits widths
  · simp [outlen, Nat.add_sub_cancel' hlen]
  · intro b hb
    rw [List.take_left' (List.length_replicate ..)] at hb
    rw [List.eq_of_mem_replicate hb]
    rfl
  · rw [overflowSlots, List.drop_left' (List.length_replicate ..)]
    exact overflow

end WriteBack

end Roga
