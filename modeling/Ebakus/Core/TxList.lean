/-
# The nonce-sorted transaction map of the pool (`core/tx_list.go`)

`txSortedMap` keeps the transactions of one account in a map from nonce to
transaction, with a heap of the nonces (`nonceHeap`) to find the lowest, and a
cache of the transactions sorted by nonce. Each operation keeps the three in
step by its own means: `Forward` and `Ready` pop the heap, `Filter` rebuilds
it, `Cap` sorts it and cuts it, `Remove` searches it; `Forward` and `Cap` cut
the cache where the others drop it.

A map is well formed (`WellFormed`) when the heap holds each nonce of the map
once and in heap order, each transaction is stored under its own nonce, and the
cache, if any, is the map's transactions sorted by nonce (`sorted`). Every
operation keeps that, and `Forward`, `Cap`, `Ready` and `Flatten` answer what
the map held in nonce order, which the heap and the sort compute by different
means.

The map is an association list whose order is the order `range` visits: Go
randomises it, and every result holds for every order. `sort.Sort` is modelled
by `mergeSort`; the nonces it sorts are distinct, so any correct sort gives the
same list. Where Go would panic on a map whose heap and items disagree (an
index past the end of the heap, a slice past the end of the cache), the model
reads nothing or keeps what there is; this never happens to a well-formed map.
A nil transaction, which a lookup of a missing nonce gives, is `none`.
-/

import Ebakus.Lang.Heap
import Mathlib.Data.List.AList

namespace Ebakus.Core

open Ebakus.Lang

variable {Tx : Type} (Nonce : Tx → UInt64)

/-- `nonceHeap.Less`. -/
def nonceLess (a b : UInt64) : Bool :=
  decide (a < b)

/-- `txSortedMap`: the transactions by nonce, the heap of their nonces, and the
cache (`none` for nil). -/
structure txSortedMap (Tx : Type) where
  items : AList fun _ : UInt64 => Tx
  index : List UInt64
  cache : Option (List Tx)

namespace txSortedMap

/-- `newTxSortedMap`. -/
def newTxSortedMap : txSortedMap Tx :=
  ⟨∅, [], none⟩

/-- `Get`. -/
def Get (m : txSortedMap Tx) (nonce : UInt64) : Option Tx :=
  m.items.lookup nonce

/-- `Put`: a new nonce goes on the heap; the cache is dropped. -/
def Put (m : txSortedMap Tx) (tx : Tx) : txSortedMap Tx :=
  let nonce := Nonce tx
  ⟨m.items.insert nonce tx,
    if (m.items.lookup nonce).isNone then Heap.Push nonceLess m.index nonce else m.index, none⟩

/-- The loop of `Forward`: pop the nonces below the threshold off the heap, and
delete their transactions. -/
def forwardLoop (threshold : UInt64) (items : AList fun _ : UInt64 => Tx) (index : List UInt64)
    (removed : List (Option Tx)) : (AList fun _ : UInt64 => Tx) × List UInt64 × List (Option Tx) :=
  match index.head? with
  | some root =>
    if root < threshold then
      match _popped : Heap.Pop nonceLess index with
      | (index', some nonce) =>
        forwardLoop threshold (items.erase nonce) index' (removed ++ [items.lookup nonce])
      | (_, none) => (items, index, removed)
    else (items, index, removed)
  | none => (items, index, removed)
termination_by index.length
decreasing_by
  have shorter := (Heap.perm_Pop _popped).length_eq
  simp only [List.length_cons] at shorter
  omega

/-- `Forward`: remove the transactions below the threshold; a cached order
loses its front. -/
def Forward (m : txSortedMap Tx) (threshold : UInt64) : List (Option Tx) × txSortedMap Tx :=
  let looped := forwardLoop threshold m.items m.index []
  (looped.2.2, ⟨looped.1, looped.2.1, m.cache.map (·.drop looped.2.2.length)⟩)

/-- The loop of `Filter` over the map: the transactions the filter picks are
collected and deleted. -/
def filterLoop (filter : Tx → Bool) :
    List (Sigma fun _ : UInt64 => Tx) → (AList fun _ : UInt64 => Tx) → List Tx →
      (AList fun _ : UInt64 => Tx) × List Tx
  | [], items, removed => (items, removed)
  | entry :: entries, items, removed =>
    if filter entry.2 then filterLoop filter entries (items.erase entry.1) (removed ++ [entry.2])
    else filterLoop filter entries items removed

/-- `Filter`: remove the transactions the filter picks; if there are any, the
heap is rebuilt from the map and the cache dropped. -/
def Filter (m : txSortedMap Tx) (filter : Tx → Bool) : List Tx × txSortedMap Tx :=
  let looped := filterLoop filter m.items.entries m.items []
  if 0 < looped.2.length then (looped.2, ⟨looped.1, Heap.Init nonceLess looped.1.keys, none⟩)
  else (looped.2, ⟨looped.1, m.index, m.cache⟩)

/-- The loop of `Cap` over the sorted nonces: `size` counts down to the
threshold, dropping the transaction of the `size`-th lowest nonce. -/
def capLoop (threshold : Nat) (index : List UInt64) :
    Nat → (AList fun _ : UInt64 => Tx) → List (Option Tx) → (AList fun _ : UInt64 => Tx) × List (Option Tx)
  | 0, items, drops => (items, drops)
  | size + 1, items, drops =>
    if threshold < size + 1 then
      match index[size]? with
      | some nonce => capLoop threshold index size (items.erase nonce) (drops ++ [items.lookup nonce])
      | none => (items, drops)
    else (items, drops)

/-- `Cap`: drop the transactions with the highest nonces beyond the threshold;
a cached order loses its back. -/
def Cap (m : txSortedMap Tx) (threshold : Nat) : List (Option Tx) × txSortedMap Tx :=
  if m.items.keys.length ≤ threshold then ([], m)
  else
    let index := m.index.mergeSort fun a b => decide (a ≤ b)
    let looped := capLoop threshold index m.items.keys.length m.items []
    (looped.2, ⟨looped.1, Heap.Init nonceLess (index.take threshold),
      m.cache.map fun cache => cache.take (cache.length - looped.2.length)⟩)

/-- `Remove`: delete the transaction and take its nonce off the heap; the
cache is dropped. Answers whether there was one. -/
def Remove (m : txSortedMap Tx) (nonce : UInt64) : Bool × txSortedMap Tx :=
  match m.items.lookup nonce with
  | none => (false, m)
  | some _ =>
    let index :=
      match m.index.findIdx? (· == nonce) with
      | some i => (Heap.Remove nonceLess m.index i).1
      | none => m.index
    (true, ⟨m.items.erase nonce, index, none⟩)

/-- The loop of `Ready`: pop the nonces while they follow one another. -/
def readyLoop (items : AList fun _ : UInt64 => Tx) (index : List UInt64) (next : UInt64)
    (ready : List (Option Tx)) : (AList fun _ : UInt64 => Tx) × List UInt64 × List (Option Tx) :=
  match _head : index.head? with
  | some root =>
    if root = next then
      readyLoop (items.erase next) (Heap.Pop nonceLess index).1 (next + 1) (ready ++ [items.lookup next])
    else (items, index, ready)
  | none => (items, index, ready)
termination_by index.length
decreasing_by
  have nonempty : 0 < index.length := by
    cases index with
    | nil => cases _head
    | cons => simp
  have shorter : (Heap.Pop nonceLess index).1.length = index.length - 1 := by
    simp [Heap.Pop]
  omega

/-- `Ready`: from the lowest nonce, if it is not above `start`, the
transactions with nonces that follow one another; the cache is dropped. -/
def Ready (m : txSortedMap Tx) (start : UInt64) : List (Option Tx) × txSortedMap Tx :=
  match m.index with
  | [] => ([], m)
  | root :: _ =>
    if start < root then ([], m)
    else
      let looped := readyLoop m.items m.index root []
      (looped.2.2, ⟨looped.1, looped.2.1, none⟩)

/-- `Flatten`: the cache, sorted by nonce from the map if there is none. -/
def Flatten (m : txSortedMap Tx) : List Tx × txSortedMap Tx :=
  let cache :=
    match m.cache with
    | some cache => cache
    | none => (m.items.entries.map (·.2)).mergeSort fun a b => decide (Nonce a ≤ Nonce b)
  (cache, { m with cache := some cache })

/-- The nonces of a map in increasing order. -/
def sortedNonces (items : AList fun _ : UInt64 => Tx) : List UInt64 :=
  items.keys.mergeSort fun a b => decide (a ≤ b)

/-- The transactions of a map in increasing nonce order. -/
def sorted (items : AList fun _ : UInt64 => Tx) : List Tx :=
  (sortedNonces items).filterMap items.lookup

/-- The heap holds each nonce of the map once, in heap order. -/
structure Indexed (items : AList fun _ : UInt64 => Tx) (index : List UInt64) : Prop where
  perm : index.Perm items.keys
  heap : Heap.IsHeap nonceLess index

/-- A well-formed map: its heap indexes it, each transaction is stored under its
nonce, and a cache is the map's transactions in nonce order. -/
structure WellFormed (m : txSortedMap Tx) : Prop where
  indexed : Indexed m.items m.index
  nonces : ∀ n tx, m.items.lookup n = some tx → Nonce tx = n
  cache : ∀ c, m.cache = some c → c = sorted m.items

section Order

/-- `nonceHeap.Less` is a strict weak order, as `heap` asks. -/
theorem nonceLess_order : Heap.StrictWeakOrder nonceLess where
  asymm a b lt := by
    simp only [nonceLess, decide_eq_true_eq, decide_eq_false_iff_not] at lt ⊢
    exact UInt64.lt_asymm lt
  negTrans a b c ab bc := by
    simp only [nonceLess, decide_eq_false_iff_not, UInt64.not_lt] at ab bc ⊢
    exact UInt64.le_trans bc ab

@[simp]
theorem nonceLess_eq_false {a b : UInt64} : nonceLess a b = false ↔ b ≤ a := by
  simp [nonceLess, UInt64.not_lt]

/-- Sorting distinct nonces orders them strictly. -/
theorem ascending_mergeSort {l : List UInt64} (nodup : l.Nodup) :
    (l.mergeSort fun a b => decide (a ≤ b)).Pairwise (· < ·) := by
  have ordered : (l.mergeSort fun a b => decide (a ≤ b)).Pairwise fun a b => decide (a ≤ b) = true :=
    List.pairwise_mergeSort (fun a b c ab bc => by simpa using UInt64.le_trans (by simpa using ab) (by simpa using bc))
      (fun a b => by simpa using UInt64.le_total a b) l
  have distinct := (List.mergeSort_perm l fun a b => decide (a ≤ b)).nodup_iff.mpr nodup
  exact (ordered.and distinct).imp fun ⟨le, ne⟩ => UInt64.lt_of_le_of_ne (by simpa using le) ne

theorem mem_sortedNonces {items : AList fun _ : UInt64 => Tx} {n : UInt64} :
    n ∈ sortedNonces items ↔ n ∈ items.keys :=
  List.mem_mergeSort

theorem perm_sortedNonces (items : AList fun _ : UInt64 => Tx) : (sortedNonces items).Perm items.keys :=
  List.mergeSort_perm _ _

theorem ascending_sortedNonces (items : AList fun _ : UInt64 => Tx) : (sortedNonces items).Pairwise (· < ·) :=
  ascending_mergeSort items.keys_nodup

theorem nodup_sortedNonces (items : AList fun _ : UInt64 => Tx) : (sortedNonces items).Nodup :=
  (perm_sortedNonces items).nodup_iff.mpr items.keys_nodup

/-- The nonce order is the one strictly increasing arrangement of the keys. -/
theorem sortedNonces_eq {items : AList fun _ : UInt64 => Tx} {l : List UInt64}
    (ascending : l.Pairwise (· < ·)) (perm : l.Perm items.keys) : sortedNonces items = l :=
  List.Perm.eq_of_pairwise (fun a _ _ _ ab ba => absurd (UInt64.lt_trans ab ba) (UInt64.lt_irrefl a))
    (ascending_sortedNonces items) ascending ((perm_sortedNonces items).trans perm.symm)

end Order

section Erased

/-- `items'` is `items` with the nonces of `gone` deleted, as the loops that
delete one nonce after another leave it. -/
def Erased (items : AList fun _ : UInt64 => Tx) (gone : List UInt64) (items' : AList fun _ : UInt64 => Tx) : Prop :=
  ∀ n, items'.lookup n = if n ∈ gone then none else items.lookup n

variable {items items' : AList fun _ : UInt64 => Tx} {gone : List UInt64}

theorem erased_nil : Erased items [] items := fun n => by simp

theorem erased_single (x : UInt64) : Erased items [x] (items.erase x) := by
  intro n
  by_cases atX : n = x
  · subst atX
    simp [AList.lookup_erase]
  · simp [atX, AList.lookup_erase_ne atX]

/-- Deleting `x` first and then the nonces of `gone` deletes those of `x :: gone`. -/
theorem erased_cons {x : UInt64} (erased : Erased (items.erase x) gone items') : Erased items (x :: gone) items' := by
  intro n
  rw [erased n, erased_single x n]
  by_cases isGone : n ∈ gone <;> by_cases atX : n = x <;> simp [isGone, atX]

theorem map_lookup_erase_of_not_mem {x : UInt64} {l : List UInt64} (fresh : x ∉ l) :
    l.map (items.erase x).lookup = l.map items.lookup :=
  List.map_congr_left fun _ mem => AList.lookup_erase_ne fun atX => fresh (atX ▸ mem)

theorem perm_keys_erase {x : UInt64} {rest : List UInt64} (perm : (x :: rest).Perm items.keys) :
    rest.Perm (items.erase x).keys := by
  rw [AList.keys_erase]
  simpa using perm.erase x

theorem lookup_of_erased (erased : Erased items gone items')
    {n : UInt64} {tx : Tx} (found : items'.lookup n = some tx) : items.lookup n = some tx := by
  rw [erased n] at found
  split at found
  · cases found
  · exact found

theorem mem_keys_of_erased (erased : Erased items gone items')
    (n : UInt64) : n ∈ items'.keys ↔ n ∈ items.keys ∧ n ∉ gone := by
  rw [← AList.mem_keys, ← AList.mem_keys, ← AList.lookup_isSome, ← AList.lookup_isSome, erased n]
  by_cases isGone : n ∈ gone <;> simp [isGone]

/-- Deleting nonces keeps the order of the others. -/
theorem sortedNonces_of_erased (erased : Erased items gone items') :
    sortedNonces items' = (sortedNonces items).filter fun n => n ∉ gone := by
  apply sortedNonces_eq ((ascending_sortedNonces items).filter _)
  rw [List.perm_ext_iff_of_nodup ((nodup_sortedNonces items).filter _) items'.keys_nodup]
  intro n
  simp [mem_sortedNonces, mem_keys_of_erased erased n]

theorem map_some_filterMap_lookup {l : List UInt64} (present : ∀ n ∈ l, n ∈ items.keys) :
    (l.filterMap items.lookup).map some = l.map items.lookup := by
  induction l with
  | nil => rfl
  | cons n l ih =>
    obtain ⟨tx, found⟩ := Option.isSome_iff_exists.mp
      (AList.lookup_isSome.mpr (AList.mem_keys.mpr (present n List.mem_cons_self)))
    simp [found, ih fun m mem => present m (List.mem_cons_of_mem n mem)]

/-- The transactions in nonce order are the lookups of the nonces in order. -/
theorem map_some_sorted (items : AList fun _ : UInt64 => Tx) :
    (sorted items).map some = (sortedNonces items).map items.lookup :=
  map_some_filterMap_lookup fun _ mem => mem_sortedNonces.mp mem

theorem map_some_sorted_of_erased (erased : Erased items gone items') :
    (sorted items').map some = ((sortedNonces items).filter fun n => n ∉ gone).map items.lookup := by
  rw [map_some_sorted, sortedNonces_of_erased erased]
  refine List.map_congr_left fun n mem => ?_
  rw [erased n, if_neg (by simpa using (List.mem_filter.mp mem).2)]

theorem filter_filterMap_lookup (nonces : ∀ n tx, items.lookup n = some tx → Nonce tx = n) (p : UInt64 → Bool) (l : List UInt64) :
    (l.filterMap items.lookup).filter (fun tx => p (Nonce tx)) = (l.filter p).filterMap items.lookup := by
  induction l with
  | nil => rfl
  | cons n l ih =>
    cases found : items.lookup n with
    | none => by_cases picked : p n <;> simp [found, ih, picked]
    | some tx => by_cases picked : p n <;> simp [found, ih, picked, nonces n tx found]

theorem filter_not_mem_drop {l : List UInt64} (nodup : l.Nodup) (k : Nat) :
    (l.filter fun n => n ∉ (l.drop k).reverse) = l.take k := by
  have apart := List.nodup_append.mp ((List.take_append_drop k l).symm ▸ nodup)
  conv_lhs => rw [← List.take_append_drop k l]
  rw [List.filter_append, List.filter_eq_self.mpr, List.filter_eq_nil_iff.mpr, List.append_nil]
  · intro n mem
    simpa using mem
  · intro n mem
    simpa using fun later => apart.2.2 n mem n later rfl

theorem filterMap_lookup_keys (items : AList fun _ : UInt64 => Tx) :
    items.keys.filterMap items.lookup = items.entries.map (·.2) := by
  rw [AList.keys, List.keys, List.filterMap_map, ← List.filterMap_eq_map']
  refine List.filterMap_congr fun entry mem => ?_
  simpa using AList.mem_lookup_iff.mpr mem

/-- The transactions of a map in nonce order are all its transactions. -/
theorem perm_sorted (items : AList fun _ : UInt64 => Tx) : (sorted items).Perm (items.entries.map (·.2)) := by
  rw [← filterMap_lookup_keys]
  exact (perm_sortedNonces items).filterMap _

/-- Sorting the transactions of a map by nonce, as `Flatten` does, gives them in
nonce order, whatever sort is used: no two have the same nonce. -/
theorem mergeSort_values (nonces : ∀ n tx, items.lookup n = some tx → Nonce tx = n) :
    (items.entries.map (·.2)).mergeSort (fun a b => decide (Nonce a ≤ Nonce b)) = sorted items := by
  have stored : ∀ tx ∈ items.entries.map (·.2), items.lookup (Nonce tx) = some tx := by
    intro tx mem
    obtain ⟨entry, entered, rfl⟩ := List.mem_map.mp mem
    have found : items.lookup entry.1 = some entry.2 := AList.mem_lookup_iff.mpr entered
    rw [nonces _ _ found, found]
  have ordered : (items.entries.map (·.2)).mergeSort (fun a b => decide (Nonce a ≤ Nonce b)) |>.Pairwise
      fun a b => decide (Nonce a ≤ Nonce b) = true :=
    List.pairwise_mergeSort (fun a b c ab bc => by simpa using UInt64.le_trans (by simpa using ab) (by simpa using bc))
      (fun a b => by simpa using UInt64.le_total (Nonce a) (Nonce b)) _
  refine List.Perm.eq_of_pairwise (fun a b mem₁ mem₂ ab ba => ?_) ordered ?_ ?_
  · have same : Nonce a = Nonce b := UInt64.le_antisymm (by simpa using ab) (by simpa using ba)
    have found₁ := stored a (List.mem_mergeSort.mp mem₁)
    have found₂ := stored b ((perm_sorted items).subset mem₂)
    rw [same, found₂, Option.some.injEq] at found₁
    exact found₁.symm
  · refine List.pairwise_filterMap.mpr ((ascending_sortedNonces items).imp fun lt a found₁ b found₂ => ?_)
    rw [nonces _ _ found₁, nonces _ _ found₂]
    simpa using UInt64.le_of_lt lt
  · exact (List.mergeSort_perm _ _).trans (perm_sorted items).symm

end Erased

section Pop

/-- The root of a heap of nonces is what `heap.Pop` takes out. -/
theorem Pop_of_head {index : List UInt64} {root : UInt64}
    (head : index.head? = some root) : Heap.Pop nonceLess index = ((Heap.Pop nonceLess index).1, some root) := by
  obtain ⟨rest, x, popped⟩ : ∃ rest x, Heap.Pop nonceLess index = (rest, some x) :=
    Heap.Pop_eq_some (by rintro rfl; cases head)
  have atRoot := Heap.Pop_root popped
  rw [← List.head?_eq_getElem?, head, Option.some.injEq] at atRoot
  rw [popped, atRoot]

/-- Popping an indexing heap takes out the lowest nonce: it heads the nonce
order, and the rest of the heap indexes the map without it. -/
theorem Indexed.Pop {items : AList fun _ : UInt64 => Tx} {index : List UInt64} (indexed : Indexed items index)
    {rest : List UInt64} {x : UInt64} (popped : Heap.Pop nonceLess index = (rest, some x)) :
    sortedNonces items = x :: sortedNonces (items.erase x) ∧ Indexed (items.erase x) rest := by
  have perm : (x :: rest).Perm items.keys := (Heap.perm_Pop popped).trans indexed.perm
  have fresh : x ∉ rest := (List.nodup_cons.mp (perm.nodup_iff.mpr items.keys_nodup)).1
  have erased : rest.Perm (items.erase x).keys := perm_keys_erase perm
  have least : ∀ n ∈ (items.erase x).keys, x < n := by
    intro n mem
    have notLess := Heap.Pop_least nonceLess_order indexed.heap popped n
      ((Heap.perm_Pop popped).subset (List.mem_cons_of_mem x (erased.symm.subset mem)))
    exact UInt64.lt_of_le_of_ne (nonceLess_eq_false.mp notLess) fun same => fresh (same ▸ erased.symm.subset mem)
  refine ⟨sortedNonces_eq ?_ ?_, erased, Heap.isHeap_Pop nonceLess_order indexed.heap popped⟩
  · exact List.Pairwise.cons (fun n mem => least n (mem_sortedNonces.mp mem)) (ascending_sortedNonces _)
  · exact (((perm_sortedNonces _).trans erased.symm).cons x).trans perm

/-- The root of an indexing heap heads the nonce order. -/
theorem Indexed.sortedNonces_of_root {items : AList fun _ : UInt64 => Tx} {index : List UInt64}
    (indexed : Indexed items index) {root : UInt64} (head : index.head? = some root) :
    sortedNonces items = root :: sortedNonces (items.erase root) :=
  (indexed.Pop (Pop_of_head head)).1

/-- An empty heap indexes an empty map. -/
theorem Indexed.sortedNonces_of_empty {items : AList fun _ : UInt64 => Tx} {index : List UInt64}
    (indexed : Indexed items index) (head : index.head? = none) : sortedNonces items = [] := by
  rw [List.head?_eq_none_iff] at head
  subst head
  exact (perm_sortedNonces items).trans indexed.perm.symm |>.eq_nil

/-- What popping the nonces `pre` off the heap of `items` leaves: `pre` is the
front of the nonce order, its transactions are gone, and what is left of the
heap indexes what is left of the map. -/
structure Popped (items : AList fun _ : UInt64 => Tx) (pre : List UInt64)
    (items' : AList fun _ : UInt64 => Tx) (index' : List UInt64) : Prop where
  front : sortedNonces items = pre ++ sortedNonces items'
  erased : Erased items pre items'
  indexed : Indexed items' index'

theorem Popped.nil {items : AList fun _ : UInt64 => Tx} {index : List UInt64} (indexed : Indexed items index) :
    Popped items [] items index :=
  ⟨rfl, erased_nil, indexed⟩

theorem Popped.cons {items : AList fun _ : UInt64 => Tx} {index : List UInt64} (indexed : Indexed items index)
    {rest : List UInt64} {x : UInt64} (popped : Heap.Pop nonceLess index = (rest, some x))
    {pre : List UInt64} {items' : AList fun _ : UInt64 => Tx} {index' : List UInt64}
    (after : Popped (items.erase x) pre items' index') : Popped items (x :: pre) items' index' :=
  ⟨by rw [(indexed.Pop popped).1, after.front, List.cons_append], erased_cons after.erased, after.indexed⟩

/-- The nonces popped after `x` do not see that `x` was deleted first. -/
theorem Popped.map_lookup_erase {items : AList fun _ : UInt64 => Tx} {x : UInt64} {pre : List UInt64}
    {items' : AList fun _ : UInt64 => Tx} {index' : List UInt64} (after : Popped (items.erase x) pre items' index') :
    pre.map (items.erase x).lookup = pre.map items.lookup := by
  refine map_lookup_erase_of_not_mem fun mem => ?_
  have present : x ∈ (items.erase x).keys := mem_sortedNonces.mp (after.front ▸ List.mem_append_left _ mem)
  rw [← AList.mem_keys, ← AList.lookup_isSome, AList.lookup_erase] at present
  cases present

/-- What is left of the map is the back of its nonce order. -/
theorem Popped.sorted_eq_drop {items : AList fun _ : UInt64 => Tx} {pre : List UInt64}
    {items' : AList fun _ : UInt64 => Tx} {index' : List UInt64} (popped : Popped items pre items' index') :
    sorted items' = (sorted items).drop pre.length := by
  apply List.map_injective_iff.mpr (Option.some_injective _)
  rw [map_some_sorted_of_erased popped.erased, ← sortedNonces_of_erased popped.erased, List.map_drop,
    map_some_sorted, popped.front, List.map_append, List.drop_left' (List.length_map _)]

end Pop

section Loops

/-- `Forward`'s loop pops the nonces below the threshold, lowest first. -/
theorem forwardLoop_spec (threshold : UInt64) {items : AList fun _ : UInt64 => Tx} {index : List UInt64}
    (indexed : Indexed items index) (removed : List (Option Tx)) :
    ∃ pre, Popped items pre (forwardLoop threshold items index removed).1 (forwardLoop threshold items index removed).2.1 ∧
      (forwardLoop threshold items index removed).2.2 = removed ++ pre.map items.lookup ∧
      (∀ n ∈ pre, n < threshold) ∧ ∀ n ∈ sortedNonces (forwardLoop threshold items index removed).1, threshold ≤ n := by
  fun_induction forwardLoop threshold items index removed with
  | case1 items index removed root head below rest nonce popped ih =>
    have atRoot : nonce = root := by
      simpa using congrArg Prod.snd (popped.symm.trans (Pop_of_head head))
    subst atRoot
    obtain ⟨pre, after, out, lower, upper⟩ := ih (indexed.Pop popped).2
    refine ⟨nonce :: pre, after.cons indexed popped, ?_, ?_, upper⟩
    · rw [out, after.map_lookup_erase, List.map_cons, List.append_assoc, List.singleton_append]
    · intro n mem
      rcases List.mem_cons.mp mem with rfl | later
      · exact below
      · exact lower n later
  | case2 items index removed root head below rest popped =>
    have := popped.symm.trans (Pop_of_head head)
    simp at this
  | case3 items index removed root head above =>
    refine ⟨[], Popped.nil indexed, by simp, by simp, fun n mem => ?_⟩
    have lowest := (ascending_sortedNonces items)
    rw [indexed.sortedNonces_of_root head] at mem lowest
    rcases List.mem_cons.mp mem with rfl | later
    · exact UInt64.not_lt.mp above
    · exact UInt64.le_trans (UInt64.not_lt.mp above) (UInt64.le_of_lt (List.rel_of_pairwise_cons lowest later))
  | case4 items index removed head =>
    refine ⟨[], Popped.nil indexed, by simp, by simp, ?_⟩
    simp [indexed.sortedNonces_of_empty head]

/-- The nonce after a run of `i + 1` starting at `a + 1` is the one after a run
of `i + 2` starting at `a`, wrapping as Go's `next++` does. -/
theorem add_one_add_ofNat (a : UInt64) (i : Nat) : a + 1 + UInt64.ofNat i = a + UInt64.ofNat (i + 1) := by
  apply UInt64.toNat_inj.mp
  simp only [UInt64.toNat_add, UInt64.toNat_ofNat', UInt64.toNat_one]
  omega

/-- `Ready`'s loop pops the nonces `next`, `next + 1`, ... for as long as the
heap's root is the one it waits for. -/
theorem readyLoop_spec {items : AList fun _ : UInt64 => Tx} {index : List UInt64}
    (indexed : Indexed items index) (next : UInt64) (ready : List (Option Tx)) :
    ∃ pre : List UInt64, Popped items pre (readyLoop items index next ready).1 (readyLoop items index next ready).2.1 ∧
      (readyLoop items index next ready).2.2 = ready ++ pre.map items.lookup ∧
      (∀ i (inRange : i < pre.length), pre[i] = next + UInt64.ofNat i) ∧
      (sortedNonces (readyLoop items index next ready).1).head? ≠ some (next + UInt64.ofNat pre.length) := by
  fun_induction readyLoop items index next ready with
  | case1 items index ready root head ih =>
    have popped := Pop_of_head head
    obtain ⟨pre, after, out, run, stop⟩ := ih (indexed.Pop popped).2
    refine ⟨root :: pre, after.cons indexed popped, ?_, fun i inRange => ?_, ?_⟩
    · rw [out, after.map_lookup_erase, List.map_cons, List.append_assoc, List.singleton_append]
    · cases i with
      | zero => simp
      | succ i => simpa [add_one_add_ofNat] using run i (by simpa using inRange)
    · simpa [add_one_add_ofNat] using stop
  | case2 items index next ready root head other =>
    refine ⟨[], Popped.nil indexed, by simp, fun i inRange => absurd inRange (Nat.not_lt_zero i), ?_⟩
    simpa [indexed.sortedNonces_of_root head] using other
  | case3 items index next ready head =>
    refine ⟨[], Popped.nil indexed, by simp, fun i inRange => absurd inRange (Nat.not_lt_zero i), ?_⟩
    simp [indexed.sortedNonces_of_empty head]

/-- `Cap`'s loop deletes the nonces at the positions from `size - 1` down to
the threshold, highest first. -/
theorem capLoop_spec (threshold : Nat) {index : List UInt64} (nodup : index.Nodup) (size : Nat)
    (inRange : size ≤ index.length) (items : AList fun _ : UInt64 => Tx) (drops : List (Option Tx)) :
    (capLoop threshold index size items drops).2 =
        drops ++ ((index.take size).drop threshold).reverse.map items.lookup ∧
      Erased items ((index.take size).drop threshold).reverse (capLoop threshold index size items drops).1 := by
  induction size generalizing items drops with
  | zero => simpa [capLoop] using erased_nil
  | succ size ih =>
    by_cases above : threshold < size + 1
    · have found : index[size]? = some index[size] := List.getElem?_eq_getElem (by omega)
      have grown : index.take (size + 1) = index.take size ++ [index[size]] := by
        rw [List.take_add_one, found, Option.toList_some]
      have cut : ((index.take (size + 1)).drop threshold).reverse =
          index[size] :: ((index.take size).drop threshold).reverse := by
        rw [grown, List.drop_append_of_le_length (by simp; omega), List.reverse_append]
        rfl
      have fresh : index[size] ∉ ((index.take size).drop threshold).reverse := by
        have distinct := (List.take_sublist (size + 1) index).nodup nodup
        rw [grown, List.nodup_append] at distinct
        exact fun mem => distinct.2.2 _ (List.mem_of_mem_drop (List.mem_reverse.mp mem)) _ (List.mem_singleton_self _) rfl
      obtain ⟨out, erased⟩ := ih (by omega) (items.erase index[size]) (drops ++ [items.lookup index[size]])
      simp only [capLoop, if_pos above, found]
      rw [cut]
      refine ⟨?_, erased_cons erased⟩
      rw [out, map_lookup_erase_of_not_mem fresh, List.map_cons, List.append_assoc, List.singleton_append]
    · have empty : (index.take (size + 1)).drop threshold = [] := List.drop_eq_nil_of_le (by simp; omega)
      simpa [capLoop, above, empty] using erased_nil

/-- `Filter`'s loop hands out the transactions the filter picks, in the order of
the map, and deletes them. -/
theorem filterLoop_spec (filter : Tx → Bool) (entries : List (Sigma fun _ : UInt64 => Tx))
    (items : AList fun _ : UInt64 => Tx) (removed : List Tx) :
    (filterLoop filter entries items removed).2 = removed ++ (entries.map (·.2)).filter filter ∧
      Erased items ((entries.filter fun entry => filter entry.2).map (·.1)) (filterLoop filter entries items removed).1 := by
  fun_induction filterLoop filter entries items removed with
  | case1 items removed => simpa using erased_nil
  | case2 entry entries items removed picked ih =>
    refine ⟨by simp [ih.1, picked], fun n => ?_⟩
    simp only [List.filter_cons, picked, if_true, List.map_cons]
    exact erased_cons ih.2 n
  | case3 entry entries items removed skipped ih =>
    refine ⟨by simp [ih.1, skipped], fun n => ?_⟩
    simp only [List.filter_cons, skipped]
    exact ih.2 n

/-- A strictly increasing run of nonces that counts up from `a` in `UInt64`
arithmetic does not wrap round: it counts up in `Nat` too. -/
theorem toNat_of_run {l : List UInt64} (ascending : l.Pairwise (· < ·)) {a : UInt64}
    (run : ∀ i (inRange : i < l.length), l[i] = a + UInt64.ofNat i) :
    ∀ i (inRange : i < l.length), l[i].toNat = a.toNat + i := by
  intro i
  induction i with
  | zero =>
    intro inRange
    simp [run 0 inRange]
  | succ i ih =>
    intro inRange
    have previous := ih (by omega)
    have step : l[i] < l[i + 1] := List.pairwise_iff_getElem.mp ascending i (i + 1) (by omega) inRange (by omega)
    have counted := congrArg UInt64.toNat (run (i + 1) inRange)
    rw [UInt64.toNat_add, UInt64.toNat_ofNat'] at counted
    have bounded := UInt64.toNat_lt l[i]
    rw [UInt64.lt_iff_toNat_lt] at step
    omega

end Loops

section Operations

variable {m : txSortedMap Tx}

theorem WellFormed.newTxSortedMap : (newTxSortedMap : txSortedMap Tx).WellFormed Nonce := by
  refine ⟨⟨List.Perm.refl _, fun k pos below => ?_⟩, fun n tx found => ?_, fun c cached => ?_⟩
  · simp [txSortedMap.newTxSortedMap] at below
  · simp [txSortedMap.newTxSortedMap] at found
  · simp [txSortedMap.newTxSortedMap] at cached

theorem WellFormed.Put (wf : m.WellFormed Nonce) (tx : Tx) : (m.Put Nonce tx).WellFormed Nonce := by
  refine ⟨⟨?_, ?_⟩, fun n tx' found => ?_, fun c cached => by simp [txSortedMap.Put] at cached⟩
  · simp only [txSortedMap.Put, AList.keys_insert]
    split
    · next absent =>
      have fresh : Nonce tx ∉ m.items.keys := by
        rw [← AList.mem_keys, ← AList.lookup_isSome]
        simpa using absent
      rw [List.erase_of_not_mem fresh]
      exact (Heap.perm_Push _ _).trans ((wf.indexed.perm.append_right _).trans (List.perm_append_singleton _ _))
    · next present =>
      have stored : Nonce tx ∈ m.items.keys := by
        rw [← AList.mem_keys, ← AList.lookup_isSome, Option.isSome_iff_ne_none]
        simpa using present
      exact wf.indexed.perm.trans (List.perm_cons_erase stored)
  · simp only [txSortedMap.Put]
    split
    · exact Heap.isHeap_Push nonceLess_order wf.indexed.heap _
    · exact wf.indexed.heap
  · by_cases same : n = Nonce tx
    · subst same
      simp only [txSortedMap.Put, AList.lookup_insert, Option.some.injEq] at found
      rw [found]
    · simp only [txSortedMap.Put, AList.lookup_insert_ne same] at found
      exact wf.nonces n tx' found

/-- `Forward` hands out the transactions below the threshold in nonce order. -/
theorem WellFormed.Forward (wf : m.WellFormed Nonce) (threshold : UInt64) :
    (m.Forward threshold).2.WellFormed Nonce ∧
      (m.Forward threshold).1 = ((sorted m.items).filter fun tx => Nonce tx < threshold).map some := by
  obtain ⟨pre, popped, out, lower, upper⟩ := forwardLoop_spec threshold wf.indexed []
  have below : pre = (sortedNonces m.items).filter fun n => n < threshold := by
    rw [popped.front, List.filter_append, List.filter_eq_self.mpr (by simpa using lower),
      List.filter_eq_nil_iff.mpr (by simpa using upper), List.append_nil]
  refine ⟨⟨popped.indexed, fun n tx found => wf.nonces n tx (lookup_of_erased popped.erased found),
    fun c cached => ?_⟩, ?_⟩
  · simp only [txSortedMap.Forward, Option.map_eq_some_iff] at cached ⊢
    obtain ⟨c₀, cached₀, rfl⟩ := cached
    rw [wf.cache c₀ cached₀, out, List.nil_append, List.length_map, popped.sorted_eq_drop]
  · simp only [txSortedMap.Forward]
    rw [out, List.nil_append, below, sorted, filter_filterMap_lookup Nonce wf.nonces fun n => decide (n < threshold),
      map_some_filterMap_lookup fun n mem => mem_sortedNonces.mp (List.mem_filter.mp mem).1]

/-- `Filter` hands out the transactions the filter picks, in the order of the
map. -/
theorem WellFormed.Filter (wf : m.WellFormed Nonce) (filter : Tx → Bool) :
    (m.Filter filter).2.WellFormed Nonce ∧ (m.Filter filter).1 = (m.items.entries.map (·.2)).filter filter := by
  obtain ⟨out, erased⟩ := filterLoop_spec filter m.items.entries m.items []
  rw [List.nil_append] at out
  unfold txSortedMap.Filter
  dsimp only
  split
  · exact ⟨⟨⟨Heap.perm_Init _, Heap.isHeap_Init nonceLess_order _⟩,
      fun n tx found => wf.nonces n tx (lookup_of_erased erased found), fun c cached => by simp at cached⟩, out⟩
  · next nothing =>
    -- nothing was picked, so nothing was deleted and the heap and cache still hold
    have none : (m.items.entries.filter fun entry => filter entry.2) = [] := by
      rw [out, List.filter_map, List.length_map, Nat.pos_iff_ne_zero, not_not, List.length_eq_zero_iff] at nothing
      exact nothing
    rw [none, List.map_nil] at erased
    refine ⟨⟨⟨?_, wf.indexed.heap⟩, fun n tx found => wf.nonces n tx (lookup_of_erased erased found),
      fun c cached => ?_⟩, out⟩
    · refine wf.indexed.perm.trans ((List.perm_ext_iff_of_nodup m.items.keys_nodup (AList.keys_nodup _)).mpr ?_)
      simp [mem_keys_of_erased erased]
    · rw [wf.cache c cached]
      apply List.map_injective_iff.mpr (Option.some_injective _)
      simp [map_some_sorted_of_erased erased, map_some_sorted]

/-- `Cap` hands out the transactions past the threshold in nonce order, highest
first. -/
theorem WellFormed.Cap (wf : m.WellFormed Nonce) (threshold : Nat) :
    (m.Cap threshold).2.WellFormed Nonce ∧ (m.Cap threshold).1 = ((sorted m.items).drop threshold).reverse.map some := by
  have size : (sortedNonces m.items).length = m.items.keys.length := (perm_sortedNonces _).length_eq
  have length_sorted : (sorted m.items).length = m.items.keys.length := by
    rw [← List.length_map (f := some), map_some_sorted, List.length_map, size]
  unfold txSortedMap.Cap
  split
  · next few => exact ⟨wf, by rw [List.drop_eq_nil_of_le (by omega)]; rfl⟩
  · next many =>
    have ordered : m.index.mergeSort (fun a b => decide (a ≤ b)) = sortedNonces m.items :=
      (sortedNonces_eq (ascending_mergeSort (wf.indexed.perm.nodup_iff.mpr m.items.keys_nodup))
        ((List.mergeSort_perm _ _).trans wf.indexed.perm)).symm
    obtain ⟨out, erased⟩ := capLoop_spec threshold (nodup_sortedNonces m.items) m.items.keys.length (by omega) m.items []
    rw [List.take_of_length_le (by omega)] at out erased
    have kept : sortedNonces (capLoop threshold (sortedNonces m.items) m.items.keys.length m.items []).1 =
        (sortedNonces m.items).take threshold := by
      rw [sortedNonces_of_erased erased, filter_not_mem_drop (nodup_sortedNonces m.items)]
    simp only [ordered]
    refine ⟨⟨⟨(Heap.perm_Init _).trans (kept ▸ perm_sortedNonces _), Heap.isHeap_Init nonceLess_order _⟩,
      fun n tx found => wf.nonces n tx (lookup_of_erased erased found), fun c cached => ?_⟩, ?_⟩
    · simp only [Option.map_eq_some_iff] at cached
      obtain ⟨c₀, cached₀, rfl⟩ := cached
      rw [wf.cache c₀ cached₀, out, List.nil_append, List.length_map, List.length_reverse, List.length_drop,
        length_sorted, size, show m.items.keys.length - (m.items.keys.length - threshold) = threshold by omega]
      apply List.map_injective_iff.mpr (Option.some_injective _)
      rw [map_some_sorted_of_erased erased, filter_not_mem_drop (nodup_sortedNonces m.items), List.map_take,
        map_some_sorted, List.map_take]
    · rw [out, List.nil_append, List.map_reverse, List.map_drop, List.map_reverse, List.map_drop, map_some_sorted]

/-- `Remove` deletes the transaction with the nonce and says whether there was
one. -/
theorem WellFormed.Remove (wf : m.WellFormed Nonce) (nonce : UInt64) :
    (m.Remove nonce).2.WellFormed Nonce ∧ (m.Remove nonce).1 = (m.items.lookup nonce).isSome := by
  unfold txSortedMap.Remove
  split
  · next absent => exact ⟨wf, by simp [absent]⟩
  · next tx present =>
    have stored : nonce ∈ m.index :=
      wf.indexed.perm.symm.subset (AList.mem_keys.mp (AList.lookup_isSome.mp (by simp [present])))
    obtain ⟨i, found⟩ : ∃ i, m.index.findIdx? (· == nonce) = some i :=
      Option.isSome_iff_exists.mp (by simpa [List.findIdx?_isSome] using stored)
    obtain ⟨inRange, atI, -⟩ := List.findIdx?_eq_some_iff_getElem.mp found
    obtain ⟨rest, x, removed⟩ : ∃ rest x, Heap.Remove nonceLess m.index i = (rest, some x) :=
      Heap.Remove_eq_some (List.ne_nil_of_mem stored) i
    obtain ⟨heap, atX⟩ := Heap.isHeap_Remove nonceLess_order wf.indexed.heap inRange removed
    have isNonce : x = nonce := by
      rw [List.getElem?_eq_getElem inRange, Option.some.injEq] at atX
      simpa [← atX] using atI
    subst isNonce
    simp only [found, removed, present, Option.isSome_some, and_true]
    exact ⟨⟨perm_keys_erase ((Heap.perm_Remove removed).trans wf.indexed.perm), heap⟩,
      fun n tx' found' => wf.nonces n tx' (lookup_of_erased (erased_single x) found'),
      fun c cached => by simp at cached⟩

/-- `Ready` hands out, when the lowest nonce is not above `start`, the longest
run of consecutive nonces from the lowest, in order. -/
theorem WellFormed.Ready (wf : m.WellFormed Nonce) (start : UInt64) :
    (m.Ready start).2.WellFormed Nonce ∧
      ∀ lowest, (sortedNonces m.items).head? = some lowest → lowest ≤ start →
        ∃ r, (m.Ready start).1 = ((sorted m.items).take r).map some ∧
          (∀ i < r, ((sortedNonces m.items)[i]?).map UInt64.toNat = some (lowest.toNat + i)) ∧
          ((sortedNonces m.items)[r]?).map UInt64.toNat ≠ some (lowest.toNat + r) := by
  unfold txSortedMap.Ready
  split
  · next empty =>
    have none := wf.indexed.sortedNonces_of_empty (by rw [empty]; rfl)
    exact ⟨wf, fun lowest head _ => by simp [none] at head⟩
  · next root tail shape =>
    have first := wf.indexed.sortedNonces_of_root (show m.index.head? = some root by rw [shape]; rfl)
    have isRoot : ∀ lowest, (sortedNonces m.items).head? = some lowest → lowest = root := by
      intro lowest head
      rw [first, List.head?_cons, Option.some.injEq] at head
      exact head.symm
    split
    · next above =>
      refine ⟨wf, fun lowest head below => absurd (UInt64.lt_of_lt_of_le above ?_) (UInt64.lt_irrefl start)⟩
      rwa [← isRoot lowest head]
    · next notAbove =>
      obtain ⟨pre, popped, out, run, stop⟩ := readyLoop_spec wf.indexed root []
      dsimp only
      refine ⟨⟨popped.indexed, fun n tx found => wf.nonces n tx (lookup_of_erased popped.erased found),
        fun c cached => by simp at cached⟩, fun lowest head _ => ?_⟩
      obtain rfl := isRoot lowest head
      have ascending : pre.Pairwise (· < ·) := (List.pairwise_append.mp (popped.front ▸ ascending_sortedNonces m.items)).1
      have counted := toNat_of_run ascending run
      refine ⟨pre.length, ?_, fun i below => ?_, fun reached => ?_⟩
      · rw [out, List.nil_append, List.map_take, map_some_sorted, ← List.map_take, popped.front, List.take_left' rfl]
      · rw [popped.front, List.getElem?_append_left below, List.getElem?_eq_getElem below, Option.map_some,
          counted i below]
      · rw [popped.front, List.getElem?_append_right (Nat.le_refl _), Nat.sub_self, ← List.head?_eq_getElem?] at reached
        obtain ⟨y, next, counts⟩ := Option.map_eq_some_iff.mp reached
        apply stop
        rw [next, Option.some.injEq, ← UInt64.toNat_inj, UInt64.toNat_add, UInt64.toNat_ofNat', counts]
        have bounded := UInt64.toNat_lt y
        omega

/-- `Flatten` answers the transactions in nonce order and caches them. -/
theorem WellFormed.Flatten (wf : m.WellFormed Nonce) :
    (m.Flatten Nonce).2.WellFormed Nonce ∧ (m.Flatten Nonce).1 = sorted m.items := by
  have answer : (m.Flatten Nonce).1 = sorted m.items := by
    unfold txSortedMap.Flatten
    split
    · next c cached => exact wf.cache c cached
    · exact mergeSort_values Nonce wf.nonces
  refine ⟨⟨wf.indexed, wf.nonces, fun c cached => ?_⟩, answer⟩
  rw [show (m.Flatten Nonce).2.items = m.items from rfl, ← answer]
  exact (Option.some.inj cached).symm

end Operations

/-- What the operations of a map do to it: every one leaves it well formed;
`Forward` hands out the transactions below the threshold, `Cap` those past it,
highest first, `Ready` the run of consecutive nonces from the lowest, and
`Flatten` all of them, each in nonce order. -/
structure OperationsSpec (m : txSortedMap Tx) : Prop where
  put : ∀ tx, (m.Put Nonce tx).WellFormed Nonce
  forward : ∀ threshold, (m.Forward threshold).2.WellFormed Nonce ∧
    (m.Forward threshold).1 = ((sorted m.items).filter fun tx => Nonce tx < threshold).map some
  filter : ∀ filter, (m.Filter filter).2.WellFormed Nonce ∧
    (m.Filter filter).1 = (m.items.entries.map (·.2)).filter filter
  cap : ∀ threshold, (m.Cap threshold).2.WellFormed Nonce ∧
    (m.Cap threshold).1 = ((sorted m.items).drop threshold).reverse.map some
  remove : ∀ nonce, (m.Remove nonce).2.WellFormed Nonce ∧ (m.Remove nonce).1 = (m.items.lookup nonce).isSome
  ready : ∀ start, (m.Ready start).2.WellFormed Nonce ∧
    ∀ lowest, (sortedNonces m.items).head? = some lowest → lowest ≤ start →
      ∃ r, (m.Ready start).1 = ((sorted m.items).take r).map some ∧
        (∀ i < r, ((sortedNonces m.items)[i]?).map UInt64.toNat = some (lowest.toNat + i)) ∧
        ((sortedNonces m.items)[r]?).map UInt64.toNat ≠ some (lowest.toNat + r)
  flatten : (m.Flatten Nonce).2.WellFormed Nonce ∧ (m.Flatten Nonce).1 = sorted m.items

theorem operations_keep_wellFormed {m : txSortedMap Tx} (wf : m.WellFormed Nonce) : OperationsSpec Nonce m :=
  ⟨wf.Put Nonce, wf.Forward Nonce, wf.Filter Nonce, wf.Cap Nonce, wf.Remove Nonce, wf.Ready Nonce, wf.Flatten Nonce⟩

theorem operations_keep_wellFormed_of_three_puts :
    ((((newTxSortedMap : txSortedMap (UInt64 × Nat)).Put Prod.fst (5, 50)).Put Prod.fst (3, 30)).Put Prod.fst (4, 40)).WellFormed Prod.fst ∧
      OperationsSpec Prod.fst
        ((((newTxSortedMap : txSortedMap (UInt64 × Nat)).Put Prod.fst (5, 50)).Put Prod.fst (3, 30)).Put Prod.fst (4, 40)) :=
  have wf := (((WellFormed.newTxSortedMap Prod.fst).Put Prod.fst (5, 50)).Put Prod.fst (3, 30)).Put Prod.fst (4, 40)
  ⟨wf, operations_keep_wellFormed Prod.fst wf⟩

end txSortedMap

end Ebakus.Core
