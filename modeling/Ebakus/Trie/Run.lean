/-
# Runs of `TryUpdate` and `TryDelete`: the trie is a finite map

A trie represents a finite map from byte keys to values when its root is nil
or canonical, it stores each key's value at the key's hex path, and it stores
nothing at a path that is no key's. Every `TryUpdate` and `TryDelete` keeps
this, with the map updated as a finite map is; from the empty trie a run of
them therefore represents the map the same operations build. `TryGet` reads
that map back, the trie is in its minimal form, and since two canonical nodes
storing the same values are equal, the trie and its hash depend on the map
alone, whatever the order of the operations.
-/

import Ebakus.Trie.Update

namespace Ebakus.Trie

open Ebakus.Lang Ebakus.Common

-- `trie.Trie` lives in package `trie`; the model keeps both names.
set_option linter.dupNamespace false

/-- `New` with the empty root: a trie of no node. -/
def Trie.empty : Trie := ⟨.nil⟩

/-- The operations of a run. -/
inductive Op
  | update (key value : List UInt8)
  | delete (key : List UInt8)

/-- One operation on a trie. -/
def Op.apply : Op → Trie → Go Trie
  | .update key value, t => t.TryUpdate key value
  | .delete key, t => t.TryDelete key

/-- A run of operations, stopping at the first panic. -/
def run : List Op → Trie → Go Trie
  | [], t => .ok t
  | op :: ops, t => do run ops (← op.apply t)

/-- A finite map from keys to values. -/
abbrev Store := List UInt8 → Option (List UInt8)

/-- What an operation does to a finite map: an update with an empty value deletes. -/
def Op.store : Op → Store → Store
  | .update key value, m => Function.update m key (if value = [] then none else some value)
  | .delete key, m => Function.update m key none

/-- What a run of operations does to a finite map. -/
def storeAll : List Op → Store → Store
  | [], m => m
  | op :: ops, m => storeAll ops (op.store m)

/-- The finite map a run builds from the empty one. -/
def contents (ops : List Op) : Store :=
  storeAll ops fun _ => none

/-- The trie `t` stores the finite map `m`. -/
structure Represents (t : Trie) (m : Store) : Prop where
  canon : t.root = .nil ∨ Canon t.root
  stored : ∀ key, lookup t.root (keybytesToHex key) = m key
  only : ∀ p, (∀ key, keybytesToHex key ≠ p) → lookup t.root p = none

theorem represents_empty : Represents Trie.empty fun _ => none :=
  ⟨.inl rfl, fun _ => by simp [Trie.empty], fun _ _ => by simp [Trie.empty]⟩

/-- A new root that stores `v` at the hex path of `key` and otherwise what the
old root stored represents the map updated at `key`. -/
theorem Represents.update {t : Trie} {m : Store} (rep : Represents t m) {root : Node}
    (good : root = .nil ∨ Canon root) {key : List UInt8} {v : Option (List UInt8)}
    (upd : Updated t.root root (keybytesToHex key) v) : Represents ⟨root⟩ (Function.update m key v) := by
  refine ⟨good, fun key' => ?_, fun p other => ?_⟩
  · rw [upd, Function.update_apply]
    by_cases same : key' = key
    · rw [if_pos (congrArg keybytesToHex same), if_pos same]
    · rw [if_neg (fun eq => same (keybytesToHex_injective eq)), if_neg same, rep.stored]
  · rw [upd, if_neg (fun eq => other key eq.symm), rep.only p other]

/-- One operation keeps a trie representing the map the operation builds. -/
theorem Represents.apply {t : Trie} {m : Store} (rep : Represents t m) (op : Op) :
    ∃ t', op.apply t = .ok t' ∧ Represents t' (op.store m) := by
  have ends := terminated_keybytesToHex
  -- A deletion through `delete`, as `TryDelete` and an empty `TryUpdate` make it.
  have deleted : ∀ key, ∃ res, delete t.root (keybytesToHex key) = .ok res ∧
      Represents ⟨res.2⟩ (Function.update m key none) := by
    intro key
    obtain ⟨res, deleted, result, good⟩ := delete_spec rep.canon (ends key)
    exact ⟨res, deleted, rep.update good result.updated⟩
  cases op with
  | update key value =>
    by_cases nothing : value = []
    · subst nothing
      obtain ⟨res, deletion, rep'⟩ := deleted key
      exact ⟨⟨res.2⟩, by simp [Op.apply, Trie.TryUpdate, deletion], by simpa [Op.store] using rep'⟩
    · obtain ⟨res, inserted, result, canon⟩ := insert_spec rep.canon (ends key) nothing
      have nonzero : value.length ≠ 0 := fun zero => nothing (List.eq_nil_of_length_eq_zero zero)
      exact ⟨⟨res.2⟩, by simp [Op.apply, Trie.TryUpdate, nonzero, inserted],
        by simpa [Op.store, nothing] using rep.update (.inr canon) result.updated⟩
  | delete key =>
    obtain ⟨res, deletion, rep'⟩ := deleted key
    exact ⟨⟨res.2⟩, by simp [Op.apply, Trie.TryDelete, deletion], rep'⟩

/-- A run keeps a trie representing the map the run builds; it never panics. -/
theorem Represents.run {t : Trie} {m : Store} (rep : Represents t m) (ops : List Op) :
    ∃ t', run ops t = .ok t' ∧ Represents t' (storeAll ops m) := by
  induction ops generalizing t m with
  | nil => exact ⟨t, rfl, rep⟩
  | cons op ops ih =>
    obtain ⟨t₁, applied, rep₁⟩ := rep.apply op
    obtain ⟨t₂, rest, rep₂⟩ := ih rep₁
    exact ⟨t₂, by simp [Trie.run, applied, rest], rep₂⟩

/-- `TryGet` reads back the map a trie represents. -/
theorem Represents.TryGet {t : Trie} {m : Store} (rep : Represents t m) (key : List UInt8) :
    t.TryGet key = .ok (m key) := by
  rw [Trie.TryGet, ← rep.stored key]
  rcases rep.canon with absent | canon
  · rw [absent]
    simp [tryGet]
  · exact canon.tryGet_eq (terminated_keybytesToHex key)

theorem Represents.minimal {t : Trie} {m : Store} (rep : Represents t m) : Minimal t.root := by
  rcases rep.canon with absent | canon
  · rw [absent]
    exact trivial
  · exact canon.minimal

/-- Two tries that represent the same map are equal. -/
theorem Represents.eq {t t' : Trie} {m : Store} (rep : Represents t m) (rep' : Represents t' m) : t = t' := by
  have same : lookup t.root = lookup t'.root := by
    funext p
    by_cases atKey : ∃ key, keybytesToHex key = p
    · obtain ⟨key, rfl⟩ := atKey
      rw [rep.stored, rep'.stored]
    · simp only [not_exists] at atKey
      rw [rep.only p atKey, rep'.only p atKey]
  -- A canonical root stores a value, which a nil root does not.
  have stores : ∀ {n : Node}, Canon n → lookup n ≠ lookup .nil := by
    intro n canon equal
    obtain ⟨p, v, found⟩ := canon.exists_lookup
    rw [equal, lookup_nil] at found
    simp at found
  obtain ⟨root⟩ := t
  obtain ⟨root'⟩ := t'
  congr 1
  rcases rep.canon with absent | canon <;> rcases rep'.canon with absent' | canon'
  · exact absent.trans absent'.symm
  · exact absurd (absent ▸ same).symm (stores canon')
  · exact absurd (absent' ▸ same) (stores canon)
  · exact canon.eq_of_lookup _ canon' same

theorem TryUpdate_TryDelete_finite_map (ops : List Op) :
    ∃ t, run ops Trie.empty = .ok t ∧
      (∀ key, t.TryGet key = .ok (contents ops key)) ∧
      Minimal t.root ∧
      ∀ ops', contents ops' = contents ops →
        ∃ t', run ops' Trie.empty = .ok t' ∧ t' = t ∧ ∀ Keccak256, t'.Hash Keccak256 = t.Hash Keccak256 := by
  obtain ⟨t, ran, rep⟩ := represents_empty.run ops
  refine ⟨t, ran, rep.TryGet, rep.minimal, fun ops' same => ?_⟩
  obtain ⟨t', ran', rep'⟩ := represents_empty.run ops'
  have rep₁ : Represents t (contents ops') := by
    rw [same]
    exact rep
  have equal : t' = t := rep'.eq rep₁
  exact ⟨t', ran', equal, fun _ => by rw [equal]⟩

end Ebakus.Trie
