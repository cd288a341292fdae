/-
# Go's `container/heap`

A heap is a slice kept in the order of the interface's `Less`: the element at
`j` is never less than the one at its parent `(j - 1) / 2`, so the least one is
at index 0. The package moves elements only by `Swap`, and the user type's
`Push` and `Pop` append and take off the last element. So whatever `Less`
answers, every function returns a permutation of the slice it was given
(`perm_Push`, `perm_Pop`, `perm_Fix`, `perm_Remove`, `perm_Init`).

When `Less` is a strict weak order `Push`, `Pop` and `Remove` keep the heap
order and `Init` makes it, and `Pop` and `Remove` answer the element they took
out: the least one for `Pop`. The order proofs follow the two sifts. `up` moves an
element towards the root; all the edges but the one above it are in order, and
its children are not less than its parent (`UpInv`). `down` moves an element
towards the leaves; all the edges below the position it started from are in
order but those from it to its children, and its children are not less than
its parent (`DownInv`).

The slice is a list, and `Less(i, j)` compares the elements at `i` and `j` by a
function `less` of the elements.
-/

import Mathlib.Data.List.Basic
import Mathlib.Logic.Equiv.Basic

namespace Ebakus.Lang.Heap

variable {α : Type} (less : α → α → Bool)

/-- `h.Swap(i, j)`. The package calls it with indices in range only. -/
def swap (h : List α) (i j : Nat) : List α :=
  match h[i]?, h[j]? with
  | some a, some b => (h.set i b).set j a
  | _, _ => h

/-- `h.Less(i, j)`. -/
def lessAt (h : List α) (i j : Nat) : Bool :=
  match h[i]?, h[j]? with
  | some a, some b => less a b
  | _, _ => false

/-- `up`: swap the element at `j` with its parent while it is less. -/
def up (h : List α) (j : Nat) : List α :=
  if same : (j - 1) / 2 = j then h
  else if lessAt less h j ((j - 1) / 2) then up (swap h ((j - 1) / 2) j) ((j - 1) / 2)
  else h
termination_by j
decreasing_by omega

/-- The child of `i` that `down` compares with it: the right one when it is
within the first `n` elements and less than the left one. -/
def leastChild (h : List α) (i n : Nat) : Nat :=
  if 2 * i + 2 < n ∧ lessAt less h (2 * i + 2) (2 * i + 1) then 2 * i + 2 else 2 * i + 1

theorem leastChild_bounds (h : List α) (i n : Nat) :
    2 * i + 1 ≤ leastChild less h i n ∧ leastChild less h i n ≤ 2 * i + 2 ∧
      (2 * i + 1 < n → leastChild less h i n < n) := by
  unfold leastChild
  split <;> omega

/-- The loop of `down`, which also answers the index it stopped at. Go stops as
well when `2 * i + 1` overflows an `int`, which a `Nat` never does. -/
def downLoop (h : List α) (i n : Nat) : List α × Nat :=
  if n ≤ 2 * i + 1 then (h, i)
  else if lessAt less h (leastChild less h i n) i then
    downLoop (swap h i (leastChild less h i n)) (leastChild less h i n) n
  else (h, i)
termination_by n - i
decreasing_by
  have := leastChild_bounds less h i n
  omega

/-- `down(h, i0, n)`: sift the element at `i0` down within the first `n`
elements; answers whether it moved. -/
def down (h : List α) (i0 n : Nat) : List α × Bool :=
  match downLoop less h i0 n with
  | (h', i) => (h', i0 < i)

/-- The loop of `Init`: `down(h, i, n)` for `i` from `k - 1` down to 0. -/
def heapify (n : Nat) : Nat → List α → List α
  | 0, h => h
  | k + 1, h => heapify n k (down less h k n).1

/-- `heap.Init`. -/
def Init (h : List α) : List α :=
  heapify less h.length (h.length / 2) h

/-- `heap.Push`. -/
def Push (h : List α) (x : α) : List α :=
  up less (h ++ [x]) h.length

/-- `heap.Pop`: the rest of the heap and the element taken out. Go panics on an
empty heap, which the callers rule out; the model answers `none`. -/
def Pop (h : List α) : List α × Option α :=
  let n := h.length - 1
  let h' := (down less (swap h 0 n) 0 n).1
  (h'.take n, h'[n]?)

/-- `heap.Remove`. -/
def Remove (h : List α) (i : Nat) : List α × Option α :=
  let n := h.length - 1
  let h' :=
    if n ≠ i then
      match down less (swap h i n) i n with
      | (h₁, moved) => if moved then h₁ else up less h₁ i
    else h
  (h'.take n, h'[n]?)

/-- `heap.Fix`. -/
def Fix (h : List α) (i : Nat) : List α :=
  match down less h i h.length with
  | (h₁, moved) => if moved then h₁ else up less h₁ i

/-- What the order proofs need of `Less`: a strict weak order, as `sort` and
`heap` ask of it. -/
structure StrictWeakOrder : Prop where
  asymm : ∀ a b, less a b = true → less b a = false
  negTrans : ∀ a b c, less a b = false → less b c = false → less a c = false

/-- The edge from `k` up to its parent is in order. -/
def InOrder (h : List α) (k : Nat) : Prop :=
  lessAt less h k ((k - 1) / 2) = false

/-- The first `n` elements are in heap order. -/
def Ordered (n : Nat) (h : List α) : Prop :=
  ∀ k, 0 < k → k < n → InOrder less h k

/-- The heap invariant as the package states it: `!h.Less(j, i)` for every `j`
and its parent `i`. -/
def IsHeap (h : List α) : Prop :=
  Ordered less h.length h

/-- While `up` moves the element at `j`: every edge of the first `n` elements
but the one above `j` is in order, and the children of `j` are not less than
its parent. -/
structure UpInv (n : Nat) (h : List α) (j : Nat) : Prop where
  edges : ∀ k, 0 < k → k < n → k ≠ j → InOrder less h k
  grand : 0 < j → ∀ c, 0 < c → c < n → (c - 1) / 2 = j → lessAt less h c ((j - 1) / 2) = false

/-- While `down`, started at `lo` or below it, moves the element at `i`: every
edge of the first `n` elements whose upper end is at `lo` or after is in
order but those at `i`, and the children of `i` are not less than its parent. -/
structure DownInv (lo n : Nat) (h : List α) (i : Nat) : Prop where
  lo_le : lo ≤ i
  edges : ∀ k, 0 < k → k < n → lo ≤ (k - 1) / 2 → k ≠ i → (k - 1) / 2 ≠ i → InOrder less h k
  grand : 0 < i → lo ≤ (i - 1) / 2 → ∀ c, 0 < c → c < n → (c - 1) / 2 = i →
    lessAt less h c ((i - 1) / 2) = false

variable {less}

section Perm

@[simp]
theorem length_swap (h : List α) (i j : Nat) : (swap h i j).length = h.length := by
  unfold swap
  split <;> simp

theorem swap_perm (h : List α) (i j : Nat) : (swap h i j).Perm h := by
  unfold swap
  split
  · rename_i a b found₁ found₂
    obtain ⟨inRange₁, rfl⟩ := List.getElem?_eq_some_iff.mp found₁
    obtain ⟨inRange₂, rfl⟩ := List.getElem?_eq_some_iff.mp found₂
    exact List.set_set_perm inRange₁ inRange₂
  · exact List.Perm.refl h

theorem up_perm (h : List α) (j : Nat) : (up less h j).Perm h := by
  fun_induction up less h j with
  | case1 => exact List.Perm.refl _
  | case2 h j _ _ ih => exact ih.trans (swap_perm h _ j)
  | case3 => exact List.Perm.refl _

theorem downLoop_perm (h : List α) (i n : Nat) : (downLoop less h i n).1.Perm h := by
  fun_induction downLoop less h i n with
  | case1 => exact List.Perm.refl _
  | case2 h i n _ ih => exact ih.trans (swap_perm h i _)
  | case3 => exact List.Perm.refl _

@[simp]
theorem length_up (h : List α) (j : Nat) : (up less h j).length = h.length :=
  (up_perm h j).length_eq

@[simp]
theorem length_downLoop (h : List α) (i n : Nat) : (downLoop less h i n).1.length = h.length :=
  (downLoop_perm h i n).length_eq

theorem downLoop_index_le (h : List α) (i n : Nat) : i ≤ (downLoop less h i n).2 := by
  fun_induction downLoop less h i n with
  | case1 => exact Nat.le_refl _
  | case2 h i _ _ ih =>
    have := (leastChild_bounds less h i n).1
    omega
  | case3 => exact Nat.le_refl _

@[simp]
theorem fst_down (h : List α) (i n : Nat) : (down less h i n).1 = (downLoop less h i n).1 := by
  unfold down
  split
  rename_i looped
  rw [looped]

@[simp]
theorem snd_down (h : List α) (i n : Nat) : (down less h i n).2 = decide (i < (downLoop less h i n).2) := by
  unfold down
  split
  rename_i looped
  rw [looped]

theorem down_perm (h : List α) (i n : Nat) : (down less h i n).1.Perm h :=
  downLoop_perm h i n

theorem heapify_perm (n k : Nat) (h : List α) : (heapify less n k h).Perm h := by
  induction k generalizing h with
  | zero => exact List.Perm.refl h
  | succ k ih => exact (ih _).trans (down_perm h k n)

theorem perm_Init (h : List α) : (Init less h).Perm h :=
  heapify_perm _ _ h

theorem perm_Push (h : List α) (x : α) : (Push less h x).Perm (h ++ [x]) :=
  up_perm _ _

theorem perm_Fix (h : List α) (i : Nat) : (Fix less h i).Perm h := by
  unfold Fix
  split
  · rename_i h₁ moved sifted
    have perm : (down less h i h.length).1.Perm h := down_perm h i h.length
    rw [sifted] at perm
    split
    · exact perm
    · exact (up_perm h₁ i).trans perm

/-- Taking the last element off a list that is a permutation of `h` leaves the
rest of a permutation of `h`. -/
theorem perm_take_of_perm {h h' : List α} (perm : h'.Perm h) {x : α} (last : h'[h.length - 1]? = some x) :
    (x :: h'.take (h.length - 1)).Perm h := by
  have size := perm.length_eq
  have split : h'.take (h.length - 1) ++ [x] = h' := by
    obtain ⟨inRange, rfl⟩ := List.getElem?_eq_some_iff.mp last
    rw [List.take_append_getElem, List.take_of_length_le (by omega)]
  rw [← split] at perm
  exact (List.perm_append_singleton x _).symm.trans perm

theorem perm_Pop {h rest : List α} {x : α} (popped : Pop less h = (rest, some x)) : (x :: rest).Perm h := by
  simp only [Pop, Prod.mk.injEq] at popped
  obtain ⟨rfl, last⟩ := popped
  exact perm_take_of_perm ((down_perm _ 0 _).trans (swap_perm h 0 _)) last

theorem perm_Remove {h rest : List α} {i : Nat} {x : α} (removed : Remove less h i = (rest, some x)) :
    (x :: rest).Perm h := by
  simp only [Remove, Prod.mk.injEq] at removed
  obtain ⟨rfl, last⟩ := removed
  refine perm_take_of_perm ?_ last
  have swapped := swap_perm h i (h.length - 1)
  split
  · split
    · exact (down_perm _ _ _).trans swapped
    · exact (up_perm _ _).trans ((down_perm _ _ _).trans swapped)
  · exact List.Perm.refl h

/-- `heap.Pop` takes an element out of every heap that has one. -/
theorem Pop_eq_some {h : List α} (nonempty : h ≠ []) : ∃ rest x, Pop less h = (rest, some x) := by
  have inRange : h.length - 1 < (down less (swap h 0 (h.length - 1)) 0 (h.length - 1)).1.length := by
    have := List.length_pos_iff.mpr nonempty
    simp only [fst_down, length_downLoop, length_swap]
    omega
  exact ⟨_, _, Prod.ext rfl (List.getElem?_eq_getElem inRange)⟩

/-- `heap.Remove` takes an element out of every heap that has one, whichever
position it is asked for. -/
theorem Remove_eq_some {h : List α} (nonempty : h ≠ []) (i : Nat) :
    ∃ rest x, Remove less h i = (rest, some x) := by
  have pos := List.length_pos_iff.mpr nonempty
  refine ⟨_, _, Prod.ext rfl (List.getElem?_eq_getElem ?_)⟩
  split
  · split
    next h₁ moved found =>
    have size := congrArg (fun p => p.1.length) found
    simp only [fst_down, length_downLoop, length_swap] at size
    split
    · omega
    · rw [length_up]; omega
  · omega

end Perm

section Swap

theorem getElem?_swap {h : List α} {i j : Nat} (inRange₁ : i < h.length) (inRange₂ : j < h.length) (k : Nat) :
    (swap h i j)[k]? = h[Equiv.swap i j k]? := by
  have found₁ : h[i]? = some h[i] := List.getElem?_eq_getElem inRange₁
  have found₂ : h[j]? = some h[j] := List.getElem?_eq_getElem inRange₂
  simp only [swap, found₁, found₂, List.getElem?_set, List.length_set, Equiv.swap_apply_def]
  split_ifs <;> subst_vars <;> simp_all

theorem getElem?_swap_of_ne (h : List α) {i j k : Nat} (ne₁ : k ≠ i) (ne₂ : k ≠ j) :
    (swap h i j)[k]? = h[k]? := by
  unfold swap
  split
  · simp [Ne.symm ne₁, Ne.symm ne₂]
  · rfl

theorem lessAt_swap {h : List α} {i j : Nat} (inRange₁ : i < h.length) (inRange₂ : j < h.length) (a b : Nat) :
    lessAt less (swap h i j) a b = lessAt less h (Equiv.swap i j a) (Equiv.swap i j b) := by
  simp only [lessAt, getElem?_swap inRange₁ inRange₂]

theorem lessAt_of_getElem? {h : List α} {a b : Nat} {x y : α} (found₁ : h[a]? = some x) (found₂ : h[b]? = some y) :
    lessAt less h a b = less x y := by
  simp [lessAt, found₁, found₂]

theorem exists_of_lessAt {h : List α} {a b : Nat} (lt : lessAt less h a b = true) :
    ∃ x y, h[a]? = some x ∧ h[b]? = some y ∧ less x y = true := by
  unfold lessAt at lt
  split at lt
  · exact ⟨_, _, ‹_›, ‹_›, lt⟩
  · cases lt

theorem lessAt_take {h : List α} {n a b : Nat} (below₁ : a < n) (below₂ : b < n) :
    lessAt less (h.take n) a b = lessAt less h a b := by
  simp [lessAt, below₁, below₂]

theorem lessAt_append {h : List α} {a b : Nat} (l : List α) (below₁ : a < h.length) (below₂ : b < h.length) :
    lessAt less (h ++ l) a b = lessAt less h a b := by
  simp [lessAt, List.getElem?_append_left, below₁, below₂]

end Swap

section Frame

/-- `down` moves nothing from the `n`-th element on. -/
theorem downLoop_frame (h : List α) (i n k : Nat) (beyond : n ≤ k) : (downLoop less h i n).1[k]? = h[k]? := by
  fun_induction downLoop less h i n with
  | case1 => rfl
  | case2 h i inner _ ih =>
    have := leastChild_bounds less h i n
    rw [ih, getElem?_swap_of_ne h (by omega) (by omega)]
  | case3 => rfl

/-- `up` moves nothing after the place it starts from. -/
theorem up_frame (h : List α) (j k : Nat) (above : j < k) : (up less h j)[k]? = h[k]? := by
  fun_induction up less h j with
  | case1 => rfl
  | case2 h j _ _ ih => rw [ih (by omega), getElem?_swap_of_ne h (by omega) (by omega)]
  | case3 => rfl

/-- `heap.Pop` answers the element it found at the root. -/
theorem Pop_root {h rest : List α} {x : α} (popped : Pop less h = (rest, some x)) : h[0]? = some x := by
  simp only [Pop, Prod.mk.injEq] at popped
  obtain ⟨-, last⟩ := popped
  have nonempty : 0 < h.length := by
    rcases h with _ | ⟨y, h⟩
    · simp [swap, down, downLoop] at last
    · simp
  rw [fst_down, downLoop_frame _ _ _ _ (Nat.le_refl _), getElem?_swap nonempty (by omega),
    Equiv.swap_apply_right] at last
  exact last

end Frame

/-- When `up` stops, the edge above `j` is in order as well. -/
theorem UpInv.finish {n : Nat} {h : List α} {j : Nat} (inv : UpInv less n h j)
    (stop : j = 0 ∨ lessAt less h j ((j - 1) / 2) = false) : Ordered less n h := by
  intro k pos below
  by_cases atJ : k = j
  · subst atJ
    rcases stop with zero | stop
    · omega
    · exact stop
  · exact inv.edges k pos below atJ

section Order

variable (order : StrictWeakOrder less)
include order

theorem StrictWeakOrder.irrefl (a : α) : less a a = false := by
  cases lt : less a a
  · rfl
  · simpa [lt] using order.asymm a a lt

theorem StrictWeakOrder.trans {a b c : α} (ab : less a b = true) (bc : less b c = true) : less a c = true := by
  cases ac : less a c
  · have ba := order.negTrans a c b ac (order.asymm b c bc)
    rw [ab] at ba
    cases ba
  · rfl

theorem lessAt_irrefl (h : List α) (a : Nat) : lessAt less h a a = false := by
  unfold lessAt
  split
  · rename_i x y found₁ found₂
    rw [found₁] at found₂
    cases found₂
    exact order.irrefl x
  · rfl

theorem lessAt_asymm {h : List α} {a b : Nat} (lt : lessAt less h a b = true) : lessAt less h b a = false := by
  obtain ⟨x, y, found₁, found₂, xy⟩ := exists_of_lessAt lt
  rw [lessAt_of_getElem? found₂ found₁]
  exact order.asymm x y xy

theorem lessAt_trans {h : List α} {a b c : Nat} (ab : lessAt less h a b = true) (bc : lessAt less h b c = true) :
    lessAt less h a c = true := by
  obtain ⟨x, y, found₁, found₂, xy⟩ := exists_of_lessAt ab
  obtain ⟨y', z, found₂', found₃, yz⟩ := exists_of_lessAt bc
  rw [found₂] at found₂'
  cases found₂'
  rw [lessAt_of_getElem? found₁ found₃]
  exact order.trans xy yz

theorem lessAt_negTrans {h : List α} {a b c : Nat} (inRange : b < h.length) (ab : lessAt less h a b = false)
    (bc : lessAt less h b c = false) : lessAt less h a c = false := by
  have found₂ : h[b]? = some h[b] := List.getElem?_eq_getElem inRange
  unfold lessAt
  split
  · rename_i x z found₁ found₃
    rw [lessAt_of_getElem? found₁ found₂] at ab
    rw [lessAt_of_getElem? found₂ found₃] at bc
    exact order.negTrans x h[b] z ab bc
  · rfl

/-- One swap of `up`: the element moves to the parent's place, and the
invariant moves with it. -/
theorem UpInv.step {n : Nat} {h : List α} {j : Nat} (inv : UpInv less n h j) (pos : 0 < j) (below : j < n)
    (size : n ≤ h.length) (moves : lessAt less h j ((j - 1) / 2) = true) :
    UpInv less n (swap h ((j - 1) / 2) j) ((j - 1) / 2) := by
  have inRange₁ : (j - 1) / 2 < h.length := by omega
  have inRange₂ : j < h.length := by omega
  constructor
  · intro k pos' below' ne
    unfold InOrder
    rw [lessAt_swap inRange₁ inRange₂]
    by_cases atJ : k = j
    · subst atJ
      rw [Equiv.swap_apply_right, Equiv.swap_apply_left]
      exact lessAt_asymm order moves
    by_cases sibling : (k - 1) / 2 = (j - 1) / 2
    · rw [Equiv.swap_apply_of_ne_of_ne ne atJ, sibling, Equiv.swap_apply_left]
      cases lt : lessAt less h k j
      · rfl
      · have edge := inv.edges k pos' below' atJ
        unfold InOrder at edge
        rw [sibling, lessAt_trans order lt moves] at edge
        cases edge
    by_cases child : (k - 1) / 2 = j
    · rw [Equiv.swap_apply_of_ne_of_ne ne atJ, child, Equiv.swap_apply_right]
      exact inv.grand pos k pos' below' child
    · rw [Equiv.swap_apply_of_ne_of_ne ne atJ, Equiv.swap_apply_of_ne_of_ne sibling child]
      exact inv.edges k pos' below' atJ
  · intro pos' c pos'' below' child
    have grandparent : Equiv.swap ((j - 1) / 2) j (((j - 1) / 2 - 1) / 2) = ((j - 1) / 2 - 1) / 2 :=
      Equiv.swap_apply_of_ne_of_ne (by omega) (by omega)
    have edge₂ := inv.edges ((j - 1) / 2) pos' (by omega) (by omega)
    unfold InOrder at edge₂
    rw [lessAt_swap inRange₁ inRange₂, grandparent]
    by_cases atJ : c = j
    · subst atJ
      rw [Equiv.swap_apply_right]
      exact edge₂
    · rw [Equiv.swap_apply_of_ne_of_ne (by omega) atJ]
      have edge₁ := inv.edges c pos'' below' atJ
      unfold InOrder at edge₁
      rw [child] at edge₁
      exact lessAt_negTrans order inRange₁ edge₁ edge₂

/-- `up` ends in heap order. -/
theorem up_ordered {n : Nat} {h : List α} {j : Nat} (inv : UpInv less n h j) (below : j < n)
    (size : n ≤ h.length) : Ordered less n (up less h j) := by
  fun_induction up less h j with
  | case1 h j same => exact inv.finish (.inl (by omega))
  | case2 h j same moves ih =>
    exact ih (inv.step order (by omega) below size moves) (by omega) (by simpa using size)
  | case3 h j same stop => exact inv.finish (.inr (by simpa using stop))

/-- The child `down` picks is not greater than either child. -/
theorem leastChild_least (h : List α) {i n c : Nat} (child : (c - 1) / 2 = i) (pos : 0 < c) (below : c < n) :
    lessAt less h c (leastChild less h i n) = false := by
  have either : c = 2 * i + 1 ∨ c = 2 * i + 2 := by omega
  unfold leastChild
  split
  · rename_i right
    rcases either with rfl | rfl
    · exact lessAt_asymm order right.2
    · exact lessAt_irrefl order h _
  · rename_i left
    rcases either with rfl | rfl
    · exact lessAt_irrefl order h _
    · simpa [below] using left

/-- One swap of `down`: the least child moves up into the place of `i`, and
the invariant moves down with the element; the edge between the two places
is now in order. -/
theorem DownInv.step {lo n : Nat} {h : List α} {i : Nat} (inv : DownInv less lo n h i) (inner : 2 * i + 1 < n)
    (size : n ≤ h.length) (moves : lessAt less h (leastChild less h i n) i = true) :
    DownInv less lo n (swap h i (leastChild less h i n)) (leastChild less h i n) ∧
      InOrder less (swap h i (leastChild less h i n)) (leastChild less h i n) := by
  obtain ⟨lower, upper, within⟩ := leastChild_bounds less h i n
  generalize chosen : leastChild less h i n = j at lower upper within moves
  have least : ∀ c, (c - 1) / 2 = i → 0 < c → c < n → lessAt less h c j = false := by
    intro c child pos below
    rw [← chosen]
    exact leastChild_least order h child pos below
  have inRange₁ : i < h.length := by omega
  have inRange₂ : j < h.length := by omega
  have parentJ : (j - 1) / 2 = i := by omega
  refine ⟨⟨Nat.le_trans inv.lo_le (by omega), ?_, ?_⟩, ?_⟩
  · intro k pos below upperEnd notJ notChild
    unfold InOrder
    rw [lessAt_swap inRange₁ inRange₂]
    by_cases atI : k = i
    · subst atI
      have grandparent : Equiv.swap k j ((k - 1) / 2) = (k - 1) / 2 :=
        Equiv.swap_apply_of_ne_of_ne (by omega) (by omega)
      rw [Equiv.swap_apply_left, grandparent]
      exact inv.grand pos upperEnd j (by omega) (within inner) parentJ
    by_cases sibling : (k - 1) / 2 = i
    · rw [Equiv.swap_apply_of_ne_of_ne atI notJ, sibling, Equiv.swap_apply_left]
      exact least k sibling pos below
    · rw [Equiv.swap_apply_of_ne_of_ne atI notJ, Equiv.swap_apply_of_ne_of_ne sibling notChild]
      exact inv.edges k pos below (by omega) atI sibling
  · intro pos upperEnd c pos' below child
    have grandchild : Equiv.swap i j c = c := Equiv.swap_apply_of_ne_of_ne (by omega) (by omega)
    rw [lessAt_swap inRange₁ inRange₂, parentJ, Equiv.swap_apply_left, grandchild]
    have edge := inv.edges c pos' below (by omega) (by omega) (by omega)
    unfold InOrder at edge
    rwa [child] at edge
  · unfold InOrder
    rw [lessAt_swap inRange₁ inRange₂, parentJ, Equiv.swap_apply_left, Equiv.swap_apply_right]
    exact lessAt_asymm order moves

/-- When `down` stops at `i`, the edges from `i` to its children are in order. -/
theorem DownInv.finish {lo n : Nat} {h : List α} {i : Nat} (inv : DownInv less lo n h i)
    (size : n ≤ h.length) (stop : n ≤ 2 * i + 1 ∨ lessAt less h (leastChild less h i n) i = false) :
    ∀ k, 0 < k → k < n → lo ≤ (k - 1) / 2 → k ≠ i → InOrder less h k := by
  intro k pos below upperEnd notI
  by_cases child : (k - 1) / 2 = i
  · rcases stop with leaf | stop
    · omega
    · unfold InOrder
      rw [child]
      have within := (leastChild_bounds less h i n).2.2 (by omega)
      exact lessAt_negTrans order (by omega) (leastChild_least order h child pos below) stop
  · exact inv.edges k pos below upperEnd notI child

/-- What `down`'s loop leaves: every edge whose upper end is at `lo` or after is
in order but the one above the start, which is in order too if the element
moved; and nothing changed if it did not. -/
theorem downLoop_spec {lo n : Nat} {h : List α} {i : Nat} (inv : DownInv less lo n h i) (size : n ≤ h.length) :
    (∀ k, 0 < k → k < n → lo ≤ (k - 1) / 2 → k ≠ i → InOrder less (downLoop less h i n).1 k) ∧
      (i < (downLoop less h i n).2 → 0 < i → lo ≤ (i - 1) / 2 → InOrder less (downLoop less h i n).1 i) ∧
      ((downLoop less h i n).2 = i → (downLoop less h i n).1 = h) := by
  fun_induction downLoop less h i n with
  | case1 h i leaf =>
    exact ⟨inv.finish order size (.inl leaf), fun moved => absurd moved (Nat.lt_irrefl i), fun _ => rfl⟩
  | case2 h i inner moves ih =>
    obtain ⟨next, between⟩ := inv.step order (by omega) size moves
    obtain ⟨edges, above, same⟩ := ih next (by simpa using size)
    have further : leastChild less h i n ≤
        (downLoop less (swap h i (leastChild less h i n)) (leastChild less h i n) n).2 :=
      downLoop_index_le _ _ _
    have lower := (leastChild_bounds less h i n).1
    refine ⟨fun k pos below upperEnd notI => ?_, fun _ pos upperEnd => ?_, fun back => by omega⟩
    · by_cases atJ : k = leastChild less h i n
      · subst atJ
        rcases Nat.lt_or_eq_of_le further with moved | stayed
        · exact above moved pos (by omega)
        · rw [same stayed.symm]
          exact between
      · exact edges k pos below upperEnd atJ
    · exact edges i pos (by omega) upperEnd (by omega)
  | case3 h i inner stop =>
    exact ⟨inv.finish order size (.inr (by simpa using stop)), fun moved => absurd moved (Nat.lt_irrefl i),
      fun _ => rfl⟩

theorem Ordered.root_least {n : Nat} {h : List α} (ordered : Ordered less n h) (size : n ≤ h.length)
    {k : Nat} (below : k < n) : lessAt less h k 0 = false := by
  induction k using Nat.strongRecOn with
  | ind k ih =>
    rcases Nat.eq_zero_or_pos k with rfl | pos
    · exact lessAt_irrefl order h 0
    · exact lessAt_negTrans order (by omega) (ordered k pos below) (ih _ (by omega) (by omega))

omit order in
theorem isHeap_take {n : Nat} {h : List α} (ordered : Ordered less n h) : IsHeap less (h.take n) := by
  intro k pos below
  simp only [List.length_take] at below
  unfold InOrder
  rw [lessAt_take (by omega) (by omega)]
  exact ordered k pos (by omega)

/-- `down` and then, if the element did not move, `up`, as `Fix` and `Remove`
do: the first `n` elements end in heap order. -/
theorem ordered_down_up {n : Nat} {h : List α} {i : Nat} (inv : DownInv less 0 n h i) (below : i < n)
    (size : n ≤ h.length) :
    Ordered less n (if (down less h i n).2 then (down less h i n).1 else up less (down less h i n).1 i) := by
  obtain ⟨edges, above, same⟩ := downLoop_spec order inv size
  have further : i ≤ (downLoop less h i n).2 := downLoop_index_le h i n
  unfold down
  rcases looped : downLoop less h i n with ⟨h', i'⟩
  rw [looped] at edges above same further
  dsimp only
  by_cases moved : i < i'
  · simp only [moved, decide_true, if_true]
    intro k pos below'
    by_cases atI : k = i
    · subst atI
      exact above moved pos (Nat.zero_le _)
    · exact edges k pos below' (Nat.zero_le _) atI
  · have unchanged : h' = h := same (by omega)
    subst unchanged
    simp only [moved, decide_false]
    exact up_ordered order ⟨fun k pos below' notI => edges k pos below' (Nat.zero_le _) notI,
      fun pos => inv.grand pos (Nat.zero_le _)⟩ below size

/-- `heap.Push` keeps the heap order. -/
theorem isHeap_Push {h : List α} (heap : IsHeap less h) (x : α) : IsHeap less (Push less h x) := by
  have inv : UpInv less (h.length + 1) (h ++ [x]) h.length := by
    refine ⟨fun k pos below notLast => ?_, fun pos c _ below child => by omega⟩
    unfold InOrder
    rw [lessAt_append [x] (by omega) (by omega)]
    exact heap k pos (by omega)
  have ordered := up_ordered order inv (Nat.lt_succ_self _) (by simp)
  unfold IsHeap Push
  simpa using ordered

/-- `heap.Pop` keeps the heap order. -/
theorem isHeap_Pop {h rest : List α} {x : α} (heap : IsHeap less h) (popped : Pop less h = (rest, some x)) :
    IsHeap less rest := by
  have root := Pop_root popped
  simp only [Pop, Prod.mk.injEq] at popped
  obtain ⟨rfl, -⟩ := popped
  have inRange₁ : 0 < h.length := by
    rcases h with _ | ⟨y, h⟩
    · cases root
    · simp
  have inRange₂ : h.length - 1 < h.length := by omega
  have inv : DownInv less 0 (h.length - 1) (swap h 0 (h.length - 1)) 0 := by
    refine ⟨Nat.le_refl 0, fun k pos below _ notRoot notChild => ?_, fun pos => absurd pos (Nat.lt_irrefl 0)⟩
    unfold InOrder
    rw [lessAt_swap inRange₁ inRange₂, Equiv.swap_apply_of_ne_of_ne (by omega) (by omega),
      Equiv.swap_apply_of_ne_of_ne notChild (by omega)]
    exact heap k pos (by omega)
  obtain ⟨edges, -, -⟩ := downLoop_spec order inv (by simp)
  exact isHeap_take fun k pos below => edges k pos below (Nat.zero_le _) (by omega)

/-- What `heap.Pop` answers is not greater than any element of the heap. -/
theorem Pop_least {h rest : List α} {x : α} (heap : IsHeap less h) (popped : Pop less h = (rest, some x)) :
    ∀ y ∈ h, less y x = false := by
  intro y mem
  obtain ⟨k, below, rfl⟩ := List.mem_iff_getElem.mp mem
  have atRoot : lessAt less h k 0 = less h[k] x :=
    lessAt_of_getElem? (List.getElem?_eq_getElem below) (Pop_root popped)
  rw [← atRoot]
  exact heap.root_least order (Nat.le_refl _) below

/-- `heap.Remove` keeps the heap order and answers the element at the index. -/
theorem isHeap_Remove {h rest : List α} {i : Nat} {x : α} (heap : IsHeap less h) (inRange : i < h.length)
    (removed : Remove less h i = (rest, some x)) : IsHeap less rest ∧ h[i]? = some x := by
  simp only [Remove, Prod.mk.injEq] at removed
  obtain ⟨rfl, last⟩ := removed
  by_cases atLast : h.length - 1 = i
  · simp only [atLast, ne_eq, not_true_eq_false, if_false] at last ⊢
    exact ⟨isHeap_take fun k pos below => heap k pos (by omega), last⟩
  · simp only [ne_eq, atLast, not_false_eq_true, if_true] at last ⊢
    have inRange₂ : h.length - 1 < h.length := by omega
    have inv : DownInv less 0 (h.length - 1) (swap h i (h.length - 1)) i := by
      refine ⟨Nat.zero_le _, fun k pos below _ notI notChild => ?_, fun pos _ c pos' below child => ?_⟩
      · unfold InOrder
        rw [lessAt_swap inRange inRange₂, Equiv.swap_apply_of_ne_of_ne notI (by omega),
          Equiv.swap_apply_of_ne_of_ne notChild (by omega)]
        exact heap k pos (by omega)
      · have away : Equiv.swap i (h.length - 1) c = c := Equiv.swap_apply_of_ne_of_ne (by omega) (by omega)
        have above : Equiv.swap i (h.length - 1) ((i - 1) / 2) = (i - 1) / 2 :=
          Equiv.swap_apply_of_ne_of_ne (by omega) (by omega)
        rw [lessAt_swap inRange inRange₂, away, above]
        have edge := heap c pos' (by omega)
        unfold InOrder at edge
        rw [child] at edge
        exact lessAt_negTrans order inRange edge (heap i pos inRange)
    refine ⟨isHeap_take (ordered_down_up order inv (by omega) (by simp)), ?_⟩
    have taken : (swap h i (h.length - 1))[h.length - 1]? = h[i]? := by
      rw [getElem?_swap inRange inRange₂, Equiv.swap_apply_right]
    split at last
    · rw [down, downLoop_frame _ _ _ _ (Nat.le_refl _), taken] at last
      exact last
    · rw [up_frame _ _ _ (by omega), down, downLoop_frame _ _ _ _ (Nat.le_refl _), taken] at last
      exact last

/-- `Init`'s loop: once the edges below `k` are in order, the sifts from `k - 1`
down to 0 order all of them. -/
theorem heapify_ordered {n : Nat} (k : Nat) {h : List α} (size : n ≤ h.length)
    (done : ∀ j, 0 < j → j < n → k ≤ (j - 1) / 2 → InOrder less h j) : Ordered less n (heapify less n k h) := by
  induction k generalizing h with
  | zero => exact fun j pos below => done j pos below (Nat.zero_le _)
  | succ k ih =>
    have inv : DownInv less k n h k :=
      ⟨Nat.le_refl k, fun j pos below _ _ notChild => done j pos below (by omega), fun pos upper => by omega⟩
    obtain ⟨edges, -, -⟩ := downLoop_spec order inv size
    rw [heapify]
    exact ih (by simpa using size) fun j pos below upper => edges j pos below upper (by omega)

/-- `heap.Init` makes a heap. -/
theorem isHeap_Init (h : List α) : IsHeap less (Init less h) := by
  have ordered := heapify_ordered order (h.length / 2) (Nat.le_refl h.length)
    fun j pos below upper => by omega
  rw [IsHeap, (perm_Init h).length_eq]
  exact ordered

end Order

end Ebakus.Lang.Heap
