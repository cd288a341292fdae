/-
# Keyed tables

A table holds at most one row per key. Inserting upserts by key, deleting
removes the row of a key, and a selection lists the rows whose key satisfies
a predicate. The table is an association list, so its rows come in a definite
order; nothing below depends on which order that is.

Column sums are the quantities that invariants over tables talk about. The
lemmas here say how a sum changes under one upsert and one delete, how it
splits along a predicate, and that a sum over any duplicate-free list of keys
stays below the whole column.
-/

import Mathlib

namespace Ebakus.Data

/-- A table of rows of type `ρ` keyed by `κ`. -/
abbrev Table (κ ρ : Type) := AList (fun _ : κ => ρ)

namespace Table

variable {κ ρ : Type} [DecidableEq κ]

/-- The rows of a table, each with its key. -/
def rows (t : Table κ ρ) : List (κ × ρ) :=
  t.entries.map fun entry => (entry.1, entry.2)

/-- The row stored under a key. -/
def get (t : Table κ ρ) (k : κ) : Option ρ :=
  t.lookup k

/-- Upsert by key. -/
def insertObj (t : Table κ ρ) (k : κ) (r : ρ) : Table κ ρ :=
  t.insert k r

/-- Remove the row of a key. -/
def deleteObj (t : Table κ ρ) (k : κ) : Table κ ρ :=
  t.erase k

/-- The rows whose key satisfies `p`, in table order. -/
def select (t : Table κ ρ) (p : κ → Bool) : List (κ × ρ) :=
  t.rows.filter fun row => p row.1

/-- The sum of a column over all rows. -/
def sum (t : Table κ ρ) (f : κ → ρ → Nat) : Nat :=
  (t.rows.map fun row => f row.1 row.2).sum

/-- Delete the rows of several keys, one after another. -/
def deleteAll (t : Table κ ρ) (ks : List κ) : Table κ ρ :=
  ks.foldl deleteObj t

theorem mem_rows {t : Table κ ρ} {k : κ} {r : ρ} : (k, r) ∈ t.rows ↔ t.get k = some r := by
  unfold rows get
  rw [List.mem_map]
  constructor
  · rintro ⟨⟨key, row⟩, member, same⟩
    simp only [Prod.mk.injEq] at same
    obtain ⟨rfl, rfl⟩ := same
    exact AList.mem_lookup_iff.mpr member
  · intro found
    exact ⟨⟨k, r⟩, AList.mem_lookup_iff.mp found, rfl⟩

omit [DecidableEq κ] in
theorem map_fst_rows (t : Table κ ρ) : t.rows.map Prod.fst = t.keys := by
  simp only [rows, List.map_map, AList.keys, List.keys]
  rfl

omit [DecidableEq κ] in
theorem nodup_keys_rows (t : Table κ ρ) : (t.rows.map Prod.fst).Nodup := by
  rw [map_fst_rows]
  exact t.keys_nodup

@[simp]
theorem get_insertObj_self (t : Table κ ρ) (k : κ) (r : ρ) : (t.insertObj k r).get k = some r :=
  AList.lookup_insert t

@[simp]
theorem get_insertObj_ne {t : Table κ ρ} {k k' : κ} {r : ρ} (differ : k' ≠ k) :
    (t.insertObj k r).get k' = t.get k' :=
  AList.lookup_insert_ne differ

theorem get_insertObj (t : Table κ ρ) (k k' : κ) (r : ρ) :
    (t.insertObj k r).get k' = if k' = k then some r else t.get k' := by
  split
  · subst k'
    exact get_insertObj_self t k r
  · exact get_insertObj_ne ‹_›

@[simp]
theorem get_deleteObj_self (t : Table κ ρ) (k : κ) : (t.deleteObj k).get k = none :=
  AList.lookup_erase k t

@[simp]
theorem get_deleteObj_ne {t : Table κ ρ} {k k' : κ} (differ : k' ≠ k) :
    (t.deleteObj k).get k' = t.get k' :=
  AList.lookup_erase_ne differ

theorem get_deleteObj (t : Table κ ρ) (k k' : κ) :
    (t.deleteObj k).get k' = if k' = k then none else t.get k' := by
  split
  · subst k'
    exact get_deleteObj_self t k
  · exact get_deleteObj_ne ‹_›

@[simp]
theorem get_empty (k : κ) : (∅ : Table κ ρ).get k = none :=
  rfl

theorem get_deleteAll (t : Table κ ρ) (ks : List κ) (k : κ) :
    (t.deleteAll ks).get k = if k ∈ ks then none else t.get k := by
  induction ks generalizing t with
  | nil => simp [deleteAll]
  | cons key keys ih =>
      simp only [deleteAll, List.foldl_cons] at ih ⊢
      rw [ih, get_deleteObj]
      by_cases here : k = key
      · simp [here]
      · by_cases later : k ∈ keys <;> simp [here, later]

theorem mem_select {t : Table κ ρ} {p : κ → Bool} {row : κ × ρ} :
    row ∈ t.select p ↔ t.get row.1 = some row.2 ∧ p row.1 = true := by
  simp only [select, List.mem_filter, ← mem_rows]

omit [DecidableEq κ] in
/-- Summing over a selection is summing the column restricted to the selected keys. -/
theorem sum_select (t : Table κ ρ) (p : κ → Bool) (g : κ × ρ → Nat) :
    ((t.select p).map g).sum = t.sum fun k r => if p k then g (k, r) else 0 := by
  unfold select sum
  induction t.rows with
  | nil => rfl
  | cons row rest ih =>
      by_cases chosen : p row.1 <;> simp [chosen, ih]

omit [DecidableEq κ] in
theorem nodup_keys_select (t : Table κ ρ) (p : κ → Bool) :
    ((t.select p).map Prod.fst).Nodup :=
  (t.nodup_keys_rows.sublist ((List.filter_sublist).map Prod.fst))

/-- Upserting replaces whatever the key held by the new row. -/
theorem sum_insertObj (t : Table κ ρ) (k : κ) (r : ρ) (f : κ → ρ → Nat) :
    (t.insertObj k r).sum f = f k r + (t.deleteObj k).sum f := by
  simp [sum, rows, insertObj, deleteObj, AList.entries_insert, AList.erase]

/-- A row's share of a column is split off by deleting it. -/
theorem sum_eq_deleteObj_add {t : Table κ ρ} {k : κ} {r : ρ} (found : t.get k = some r)
    (f : κ → ρ → Nat) : t.sum f = (t.deleteObj k).sum f + f k r := by
  have member : (⟨k, r⟩ : Sigma fun _ : κ => ρ) ∈ t.entries :=
    AList.mem_lookup_iff.mp found
  have key : k ∈ t.entries.keys := List.mem_keys_of_mem member
  obtain ⟨stored, before, after, fresh, split, erased⟩ := List.exists_of_kerase key
  have same : stored = r := by
    have lookedUp := found
    simp only [get, AList.lookup, split] at lookedUp
    rw [List.dlookup_append, List.dlookup_eq_none.mpr fresh, Option.none_or,
      List.dlookup_cons_eq] at lookedUp
    exact Option.some.inj lookedUp
  subst stored
  have entriesErased : (t.deleteObj k).entries = before ++ after := erased
  simp only [sum, rows, entriesErased, split, List.map_append, List.map_cons,
    List.sum_append, List.sum_cons]
  omega

theorem deleteObj_of_get_none {t : Table κ ρ} {k : κ} (absent : t.get k = none) :
    t.deleteObj k = t := by
  apply AList.ext
  exact List.kerase_of_notMem_keys (AList.lookup_eq_none.mp absent)

theorem sum_deleteObj_add (t : Table κ ρ) (k : κ) (f : κ → ρ → Nat) :
    t.sum f = (t.deleteObj k).sum f + (match t.get k with | some r => f k r | none => 0) := by
  cases found : t.get k with
  | none => rw [deleteObj_of_get_none found, Nat.add_zero]
  | some r => exact sum_eq_deleteObj_add found f

/-- Only the row of `k` counts when the column vanishes elsewhere. -/
theorem sum_single (t : Table κ ρ) (k : κ) (g : ρ → Nat) :
    t.sum (fun key row => if key = k then g row else 0) =
      (match t.get k with | some r => g r | none => 0) := by
  have rest : (t.deleteObj k).sum (fun key row => if key = k then g row else 0) = 0 := by
    simp only [sum, List.sum_eq_zero_iff, List.mem_map]
    rintro _ ⟨⟨key, row⟩, member, rfl⟩
    have absent := get_deleteObj_self t k
    have stored := mem_rows.mp member
    have differ : key ≠ k := by
      rintro rfl
      rw [absent] at stored
      cases stored
    simp [differ]
  rw [sum_deleteObj_add t k, rest, Nat.zero_add]
  cases t.get k <;> simp

/-- Columns that agree on every stored row have the same sum. -/
theorem sum_congr {t : Table κ ρ} {f g : κ → ρ → Nat} (agree : ∀ k r, t.get k = some r → f k r = g k r) :
    t.sum f = t.sum g := by
  simp only [sum]
  congr 1
  apply List.map_congr_left
  rintro ⟨k, r⟩ member
  exact agree k r (mem_rows.mp member)

omit [DecidableEq κ] in
theorem sum_add (t : Table κ ρ) (f g : κ → ρ → Nat) :
    t.sum (fun k r => f k r + g k r) = t.sum f + t.sum g := by
  simp only [sum, List.sum_map_add]

/-- A sum splits along any predicate on keys. -/
theorem sum_split (t : Table κ ρ) (p : κ → Prop) [DecidablePred p] (f : κ → ρ → Nat) :
    t.sum f = t.sum (fun k r => if p k then f k r else 0) +
      t.sum (fun k r => if p k then 0 else f k r) := by
  rw [← sum_add]
  apply sum_congr
  intro k r _
  split <;> simp

omit [DecidableEq κ] in
/-- A sum splits along any predicate on rows. -/
theorem sum_split_rows (t : Table κ ρ) (p : κ → ρ → Prop) [∀ k r, Decidable (p k r)]
    (f : κ → ρ → Nat) :
    t.sum f = t.sum (fun k r => if p k r then f k r else 0) +
      t.sum (fun k r => if p k r then 0 else f k r) := by
  rw [← sum_add]
  simp only [sum]
  congr 1
  apply List.map_congr_left
  intro row _
  split <;> simp

omit [DecidableEq κ] in
@[simp]
theorem sum_empty (f : κ → ρ → Nat) : (∅ : Table κ ρ).sum f = 0 :=
  rfl

omit [DecidableEq κ] in
theorem sum_zero (t : Table κ ρ) : t.sum (fun _ _ => 0) = 0 := by
  simp [sum]

/-- Deleting the rows of several keys zeroes their share of every column. -/
theorem sum_deleteAll (t : Table κ ρ) (ks : List κ) (f : κ → ρ → Nat) :
    (t.deleteAll ks).sum f = t.sum (fun k r => if k ∈ ks then 0 else f k r) := by
  induction ks generalizing t with
  | nil => simp [deleteAll]
  | cons key keys ih =>
      simp only [deleteAll, List.foldl_cons] at ih ⊢
      rw [ih]
      rw [sum_deleteObj_add t key (fun k r => if k ∈ key :: keys then 0 else f k r)]
      simp only [List.mem_cons, true_or, if_true]
      cases t.get key <;>
      · simp only [Nat.add_zero]
        apply sum_congr
        intro k r stored
        by_cases here : k = key
        · subst here
          simp at stored
        · simp [here]

/-- The value a column takes at a key: that of the key's row, or zero. -/
def valueAt (t : Table κ ρ) (f : κ → ρ → Nat) (k : κ) : Nat :=
  match t.get k with
  | some r => f k r
  | none => 0

theorem valueAt_of_get_none {t : Table κ ρ} {f : κ → ρ → Nat} {k : κ} (absent : t.get k = none) :
    t.valueAt f k = 0 := by
  simp [valueAt, absent]

/-- A column sum is the sum of the column's values over any set of keys that
covers the table. -/
theorem sum_eq_sum_valueAt (t : Table κ ρ) (f : κ → ρ → Nat) (s : Finset κ)
    (covers : ∀ k ∈ t.keys, k ∈ s) : t.sum f = ∑ k ∈ s, t.valueAt f k := by
  have onKeys : t.sum f = ∑ k ∈ t.keys.toFinset, t.valueAt f k := by
    rw [List.sum_toFinset _ t.keys_nodup, ← map_fst_rows, List.map_map]
    simp only [sum]
    congr 1
    apply List.map_congr_left
    rintro ⟨k, r⟩ member
    simp [valueAt, mem_rows.mp member]
  rw [onKeys]
  apply Finset.sum_subset
  · intro k member
    exact covers k (List.mem_toFinset.mp member)
  · intro k _ notKey
    apply valueAt_of_get_none
    apply AList.lookup_eq_none.mpr
    simpa [AList.mem_keys] using notKey

/-- Tables that agree on the keys where a column can be non-zero have the same
sum of that column. -/
theorem sum_eq_of_get_eq_on {t u : Table κ ρ} {f : κ → ρ → Nat} (p : κ → Prop)
    (agree : ∀ k, p k → t.get k = u.get k) (vanish : ∀ k r, ¬p k → f k r = 0) :
    t.sum f = u.sum f := by
  classical
  let both := t.keys.toFinset ∪ u.keys.toFinset
  rw [sum_eq_sum_valueAt t f both (fun k member => by simp [both, member]),
    sum_eq_sum_valueAt u f both (fun k member => by simp [both, member])]
  apply Finset.sum_congr rfl
  intro k _
  by_cases relevant : p k
  · simp [valueAt, agree k relevant]
  · simp only [valueAt]
    split <;> split <;> simp [vanish k _ relevant]

/-- The values of a column over any set of keys add up to at most the whole
column. -/
theorem sum_valueAt_le (t : Table κ ρ) (f : κ → ρ → Nat) (s : Finset κ) :
    ∑ k ∈ s, t.valueAt f k ≤ t.sum f := by
  classical
  rw [sum_eq_sum_valueAt t f (s ∪ t.keys.toFinset) (fun k member => by simp [member])]
  exact Finset.sum_le_sum_of_subset Finset.subset_union_left

end Table

end Ebakus.Data
