import Mathlib.Data.List.Nodup
import Mathlib.Data.List.Perm.Basic
import Mathlib.Tactic

/-! Compare-exchange on Boolean wires, and the zero-one principle that carries
a property of every Boolean run to slices under any total preorder. Wires are
indexed by all of `Nat`: the ones past the end of a slice hold `true`, the
largest value, so a comparator reaching past the end changes nothing. -/
namespace Roga.Network

abbrev Wires := Nat → Bool

/-- The smaller value to wire `i`, the larger to wire `j`. -/
def exchange (i j : Nat) (w : Wires) : Wires := fun k =>
  if k = i then w i && w j else if k = j then w i || w j else w k

def Padded (n : Nat) (w : Wires) : Prop := ∀ k, n ≤ k → w k = true

variable {α : Type}

/-- The strict part of a total preorder, read as "greater than". -/
structure WeakOrder (gt : α → α → Bool) : Prop where
  asymm : ∀ {a b}, gt a b = true → gt b a = false
  cotrans : ∀ {a b} (c), gt a b = true → gt a c = true ∨ gt c b = true

/-- An upward closed set of values. -/
def Upward (gt : α → α → Bool) (f : α → Bool) : Prop :=
  ∀ a b, f a = true → f b = false → gt a b = true

/-- Membership in `f` along a slice, with `true` past its end. -/
def view (f : α → Bool) (xs : List α) : Wires := fun k => (xs[k]?.map f).getD true

theorem view_padded (f : α → Bool) (xs : List α) : Padded xs.length (view f xs) := by
  intro k hk
  simp [view, List.getElem?_eq_none hk]

theorem view_get (f : α → Bool) {xs : List α} {k : Nat} (h : k < xs.length) :
    view f xs k = f xs[k] := by
  simp [view, List.getElem?_eq_getElem h]

theorem view_of_sorted {gt : α → α → Bool} {xs : List α} (sorted : xs.Pairwise fun a b => gt a b = false)
    {f : α → Bool} (up : Upward gt f) {i j : Nat} (hij : i ≤ j) (hj : j < xs.length)
    (hi : view f xs i = true) : view f xs j = true := by
  obtain rfl | hlt := Nat.eq_or_lt_of_le hij
  · exact hi
  · have below := List.pairwise_iff_getElem.mp sorted i j (by omega) hj hlt
    rw [view_get _ (by omega)] at hi
    rw [view_get _ hj]
    by_contra h
    exact absurd (up _ _ hi (by simpa using h)) (by simp [below])

/-- Comparing keys of a linear order. -/
theorem WeakOrder.of_key {κ : Type} [LinearOrder κ] (key : α → κ) :
    WeakOrder fun a b => decide (key b < key a) where
  asymm h := by simpa using (of_decide_eq_true h).le
  cotrans {a b} c h := by
    have below := of_decide_eq_true h
    rcases lt_or_ge (key c) (key a) with left | right
    · exact .inl (decide_eq_true left)
    · exact .inr (decide_eq_true (below.trans_le right))

section ZeroOne
variable {gt : α → α → Bool} (order : WeakOrder gt)
include order

theorem WeakOrder.irrefl (a : α) : gt a a = false := by
  cases h : gt a a with
  | false => rfl
  | true => exact h ▸ order.asymm h

theorem WeakOrder.upward_ge (a : α) : Upward gt fun b => !gt a b := by
  intro b c hb hc
  rw [Bool.not_eq_true'] at hb
  rw [Bool.not_eq_false'] at hc
  exact (order.cotrans b hc).resolve_left (by simp [hb])

/-- Zero-one principle: a slice is ordered once every upward closed view of it is. -/
theorem WeakOrder.sorted_of_views {xs : List α}
    (views : ∀ f, Upward gt f → ∀ i j, i ≤ j → j < xs.length →
      view f xs i = true → view f xs j = true) :
    xs.Pairwise fun a b => gt a b = false := by
  rw [List.pairwise_iff_getElem]
  intro i j hi hj hij
  have seen := views (fun b => !gt xs[i] b) (order.upward_ge xs[i]) i j (Nat.le_of_lt hij) hj
    (by rw [view_get _ hi]; simp [order.irrefl])
  rw [view_get _ hj] at seen
  simpa using seen

/-- Any conditional exchange that swaps exactly the out-of-order pairs acts on
every upward closed view as the Boolean exchange. -/
theorem WeakOrder.view_swap {f : α → Bool} (up : Upward gt f) {xs : List α} {i j : Nat}
    (hij : i < j) :
    view f (match xs[i]?, xs[j]? with
      | some a, some b => if gt a b then (xs.set i b).set j a else xs
      | _, _ => xs) = exchange i j (view f xs) := by
  by_cases hj : j < xs.length
  · have hi : i < xs.length := by omega
    rw [List.getElem?_eq_getElem hi, List.getElem?_eq_getElem hj]
    funext k
    simp only [exchange]
    split
    · rename_i swap
      rw [view_get _ hi, view_get _ hj]
      have keep : f xs[j] = true → f xs[i] = true := by
        intro h
        by_contra hn
        have := order.asymm swap
        exact absurd (up _ _ h (by simpa using hn)) (by simp [this])
      by_cases hkj : k = j
      · subst hkj
        rw [if_neg (by omega), if_pos rfl, view_get _ (by simpa using hj)]
        simp only [List.getElem_set_self]
        cases h₁ : f xs[i] <;> cases h₂ : f xs[k] <;> simp_all
      · by_cases hki : k = i
        · subst hki
          rw [if_pos rfl, view_get _ (by simpa using hi), List.getElem_set_ne (by omega),
            List.getElem_set_self]
          cases h₁ : f xs[k] <;> cases h₂ : f xs[j] <;> simp_all
        · rw [if_neg hki, if_neg hkj]
          simp [view, List.getElem?_set_ne (Ne.symm hkj), List.getElem?_set_ne (Ne.symm hki)]
    · rename_i keep
      rw [view_get _ hi, view_get _ hj]
      have mono : f xs[i] = true → f xs[j] = true := by
        intro h
        by_contra hn
        exact keep (up _ _ h (by simpa using hn))
      by_cases hki : k = i
      · subst hki
        rw [if_pos rfl, view_get _ hi]
        cases h₁ : f xs[k] <;> cases h₂ : f xs[j] <;> simp_all
      · by_cases hkj : k = j
        · subst hkj
          rw [if_neg hki, if_pos rfl, view_get _ hj]
          cases h₁ : f xs[i] <;> cases h₂ : f xs[k] <;> simp_all
        · rw [if_neg hki, if_neg hkj]
  · have past : view f xs j = true := view_padded f xs j (by omega)
    rw [List.getElem?_eq_none (by omega : xs.length ≤ j)]
    have unchanged : (match xs[i]?, (none : Option α) with
      | some a, some b => if gt a b then (xs.set i b).set j a else xs
      | _, _ => xs) = xs := by split <;> simp_all
    rw [unchanged]
    funext k
    simp only [exchange, past, Bool.and_true, Bool.or_true]
    split
    · rename_i h; rw [h]
    · split
      · rename_i h; rw [h, past]
      · rfl

end ZeroOne

theorem swap_perm {gt : α → α → Bool} (xs : List α) (i j : Nat) :
    (match xs[i]?, xs[j]? with
      | some a, some b => if gt a b then (xs.set i b).set j a else xs
      | _, _ => xs).Perm xs := by
  split
  · rename_i a b ha hb
    obtain ⟨hi, rfl⟩ := List.getElem?_eq_some_iff.mp ha
    obtain ⟨hj, rfl⟩ := List.getElem?_eq_some_iff.mp hb
    split
    · exact List.set_set_perm hi hj
    · rfl
  · rfl

section Layers

variable {ι : Type} {a b : ι → Nat}

theorem exchange_comm {i j i' j' : Nat} (h₁ : i ≠ i') (h₂ : i ≠ j') (h₃ : j ≠ i') (h₄ : j ≠ j')
    (w : Wires) : exchange i j (exchange i' j' w) = exchange i' j' (exchange i j w) := by
  funext k
  simp only [exchange]
  split_ifs <;> simp_all

theorem exchange_padded {n i j : Nat} {w : Wires} (hij : i < j) (padded : Padded n w) :
    Padded n (exchange i j w) := by
  intro k hk
  simp only [exchange]
  split
  · rename_i h; simp [padded i (h ▸ hk), padded j (by omega)]
  · split
    · rename_i h; simp [padded j (h ▸ hk)]
    · exact padded k hk

/-- A layer of comparators, one per index of `js`. -/
def layer (a b : ι → Nat) (js : List ι) (w : Wires) : Wires :=
  js.foldl (fun w j => exchange (a j) (b j) w) w

theorem layer_frame {js : List ι} {k : Nat} (h : ∀ j ∈ js, k ≠ a j ∧ k ≠ b j) (w : Wires) :
    layer a b js w k = w k := by
  induction js generalizing w with
  | nil => rfl
  | cons j js ih =>
    have hj := h j (by simp)
    rw [layer, List.foldl_cons, ← layer, ih fun j' hj' => h j' (by simp [hj'])]
    simp [exchange, hj.1, hj.2]

theorem layer_at {js : List ι} (nodup : js.Nodup) (hab : ∀ i ∈ js, ∀ j ∈ js, a i ≠ b j)
    (ha : ∀ i ∈ js, ∀ j ∈ js, a i = a j → i = j) (hb : ∀ i ∈ js, ∀ j ∈ js, b i = b j → i = j)
    {j : ι} (hj : j ∈ js) (w : Wires) :
    layer a b js w (a j) = (w (a j) && w (b j)) ∧ layer a b js w (b j) = (w (a j) || w (b j)) := by
  induction js generalizing w with
  | nil => simp at hj
  | cons i js ih =>
    obtain ⟨hi, hjs⟩ := List.nodup_cons.mp nodup
    rw [layer, List.foldl_cons, ← layer]
    rcases List.mem_cons.mp hj with rfl | hmem
    · have fresh : ∀ i ∈ js, (a j ≠ a i ∧ a j ≠ b i) ∧ (b j ≠ a i ∧ b j ≠ b i) := by
        intro i him
        have hne : j ≠ i := fun h => hi (h ▸ him)
        refine ⟨⟨fun h => hne (ha _ (by simp) _ (by simp [him]) h), hab _ (by simp) _ (by simp [him])⟩,
          fun h => hab i (by simp [him]) j (by simp) h.symm,
          fun h => hne (hb _ (by simp) _ (by simp [him]) h)⟩
      rw [layer_frame fun i him => (fresh i him).1, layer_frame fun i him => (fresh i him).2]
      have hne := hab j (by simp) j (by simp)
      simp [exchange, Ne.symm hne]
    · have hne : i ≠ j := fun h => hi (h ▸ hmem)
      have step := ih hjs (fun x hx y hy => hab x (by simp [hx]) y (by simp [hy]))
        (fun x hx y hy => ha x (by simp [hx]) y (by simp [hy]))
        (fun x hx y hy => hb x (by simp [hx]) y (by simp [hy])) hmem (exchange (a i) (b i) w)
      have e₁ : a j ≠ a i := fun h => hne (ha i (by simp) j hj h.symm)
      have e₂ : a j ≠ b i := hab j hj i (by simp)
      have e₃ : b j ≠ a i := fun h => hab i (by simp) j hj h.symm
      have e₄ : b j ≠ b i := fun h => hne (hb i (by simp) j hj h.symm)
      rw [step.1, step.2]
      simp [exchange, e₁, e₂, e₃, e₄]

theorem foldl_commutes {σ κ : Type} {g : σ → σ} {h : κ → σ → σ} {cols : List κ}
    (comm : ∀ c ∈ cols, ∀ s, g (h c s) = h c (g s)) (s : σ) :
    g (cols.foldl (fun s c => h c s) s) = cols.foldl (fun s c => h c s) (g s) := by
  induction cols generalizing s with
  | nil => rfl
  | cons c cols ih =>
    rw [List.foldl_cons, ih (fun c' hc => comm c' (by simp [hc])), comm c (by simp), List.foldl_cons]

theorem foldl_zip {σ κ : Type} {g h : κ → σ → σ} {cols : List κ}
    (comm : cols.Pairwise fun c c' => ∀ s, h c (g c' s) = g c' (h c s)) (s : σ) :
    cols.foldl (fun s c => h c s) (cols.foldl (fun s c => g c s) s) =
      cols.foldl (fun s c => h c (g c s)) s := by
  induction cols generalizing s with
  | nil => rfl
  | cons c cols ih =>
    obtain ⟨hc, hcols⟩ := List.pairwise_cons.mp comm
    simp only [List.foldl_cons]
    rw [foldl_commutes hc, ih hcols]

/-- Rows may be exchanged with columns when each later row commutes with every
earlier row's later columns. -/
theorem foldl_interchange {σ κ : Type} (f : ι → κ → σ → σ) (rows : List ι) (cols : List κ)
    (comm : rows.Pairwise fun i i' => cols.Pairwise fun c c' => ∀ s,
      f i' c (f i c' s) = f i c' (f i' c s)) (s : σ) :
    rows.foldl (fun s i => cols.foldl (fun s c => f i c s) s) s =
      cols.foldl (fun s c => rows.foldl (fun s i => f i c s) s) s := by
  induction rows generalizing s with
  | nil =>
    simp only [List.foldl_nil]
    induction cols with
    | nil => rfl
    | cons c cols ih => exact ih (by simp)
  | cons i rows ih =>
    obtain ⟨hi, hrows⟩ := List.pairwise_cons.mp comm
    simp only [List.foldl_cons]
    rw [ih hrows, foldl_zip]
    rw [List.pairwise_iff_forall_sublist]
    intro c c' sub s
    symm
    apply foldl_commutes
    intro i' hi' t
    exact (List.pairwise_iff_forall_sublist.mp (hi i' hi') sub t).symm

end Layers
end Roga.Network
