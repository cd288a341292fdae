/-
# Loops over a map of pointers

Go code that keeps its parts in a map of pointers updates them with a loop
`for _, v := range m { if err := v.update(); err != nil { return err } }`, or
with the same calls written out one after another: each update changes its
part in place, and the first error ends the loop, with the parts updated
before it left as they are. For a map the runtime picks the order, so the
model takes the order as a list of keys.

When the keys are distinct and every update succeeds, the loop ends without
an error, each visited part the one its update returned and the others
unchanged (`updateEach_of_ok`), so that what each update makes true of its part
holds of the part the loop leaves (`updateEach_of_ok_and`).
-/

import Mathlib.Logic.Function.Basic
import Mathlib.Data.List.Nodup

namespace Ebakus.Lang

variable {κ σ ε : Type} [DecidableEq κ]

/-- The loop over `keys`: the parts it leaves, and the error it stopped at. -/
def updateEach (update : κ → σ → Except ε σ) (parts : κ → σ) : List κ → (κ → σ) × Option ε
  | [] => (parts, none)
  | k :: keys =>
    match update k (parts k) with
    | .ok v => updateEach update (Function.update parts k v) keys
    | .error e => (parts, some e)

theorem updateEach_cons_of_ok {update : κ → σ → Except ε σ} {parts : κ → σ} {k : κ} {v : σ}
    (updated : update k (parts k) = .ok v) (keys : List κ) :
    updateEach update parts (k :: keys) = updateEach update (Function.update parts k v) keys := by
  rw [updateEach, updated]

/-- Over distinct keys whose updates all succeed, the loop ends without an
error; each visited part is its update's result, and the others are kept. -/
theorem updateEach_of_ok {update : κ → σ → Except ε σ} {parts : κ → σ} {keys : List κ}
    (distinct : keys.Nodup) (ok : ∀ k ∈ keys, ∃ v, update k (parts k) = .ok v) :
    ∃ parts', updateEach update parts keys = (parts', none) ∧
      ∀ k, (k ∈ keys → update k (parts k) = .ok (parts' k)) ∧ (k ∉ keys → parts' k = parts k) := by
  induction keys generalizing parts with
  | nil => exact ⟨parts, rfl, fun _ => ⟨fun mem => absurd mem List.not_mem_nil, fun _ => rfl⟩⟩
  | cons k keys ih =>
    obtain ⟨fresh, distinct⟩ := List.nodup_cons.mp distinct
    obtain ⟨v, updated⟩ := ok k List.mem_cons_self
    -- the later keys find their parts as they were
    have untouched : ∀ k' ∈ keys, Function.update parts k v k' = parts k' := fun k' mem =>
      Function.update_of_ne (ne_of_mem_of_not_mem mem fresh) _ _
    obtain ⟨parts', ran, spec⟩ :=
      ih distinct fun k' mem => (untouched k' mem).symm ▸ ok k' (List.mem_cons_of_mem _ mem)
    refine ⟨parts', by rw [updateEach_cons_of_ok updated, ran], fun k' => ?_⟩
    by_cases same : k' = k
    · subst same
      have kept := (spec k').2 fresh
      rw [Function.update_self] at kept
      exact ⟨fun _ => kept ▸ updated, fun absent => absurd List.mem_cons_self absent⟩
    · simp only [List.mem_cons, same, false_or]
      rw [← Function.update_of_ne same v parts]
      exact spec k'

/-- A loop whose updates return their parts as they are leaves the map as it is. -/
theorem updateEach_of_unchanged (update : κ → σ → Except ε σ) (parts : κ → σ) {keys : List κ}
    (unchanged : ∀ k ∈ keys, update k (parts k) = .ok (parts k)) : updateEach update parts keys = (parts, none) := by
  induction keys with
  | nil => rfl
  | cons k keys ih =>
    rw [updateEach_cons_of_ok (unchanged k List.mem_cons_self), Function.update_eq_self]
    exact ih fun k' mem => unchanged k' (List.mem_cons_of_mem _ mem)

/-- Over distinct keys whose updates all succeed with parts satisfying `P`, the
loop ends without an error, with every visited part satisfying `P`. -/
theorem updateEach_of_ok_and (update : κ → σ → Except ε σ) (parts : κ → σ) {keys : List κ}
    (P : κ → σ → Prop) (distinct : keys.Nodup) (ok : ∀ k ∈ keys, ∃ v, update k (parts k) = .ok v ∧ P k v) :
    ∃ parts', updateEach update parts keys = (parts', none) ∧ ∀ k ∈ keys, P k (parts' k) := by
  obtain ⟨parts', ran, spec⟩ := updateEach_of_ok distinct fun k mem => (ok k mem).imp fun _ found => found.1
  refine ⟨parts', ran, fun k mem => ?_⟩
  obtain ⟨v, updated, holds⟩ := ok k mem
  -- the loop kept the very part the update returned
  have same : parts' k = v := Except.ok.inj (((spec k).1 mem).symm.trans updated)
  exact same ▸ holds

end Ebakus.Lang
