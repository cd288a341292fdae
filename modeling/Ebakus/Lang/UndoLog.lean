/-
# Undo logs

A store that can roll back keeps a log of entries, each able to undo the
change that recorded it. Rolling back to a mark undoes the entries after it,
newest first; an undo may fail, and the first failure stops the roll-back.

Two facts carry every proof about such a store. Undoing a list split in two
undoes one part and then the other (`undoAll_append`). And when each undo
reads and writes a state only through a view of it, so that states with the
same view give results with the same view, undoing any list of entries keeps
that agreement (`undoAll_congr`): what the undos restore is then a fact about
views, whatever else the state holds.
-/

import Mathlib.Data.List.Basic

namespace Ebakus.Lang.UndoLog

variable {σ ε π V : Type}

/-- Undo the entries one after another, stopping at the first failure. -/
def undoAll (undo : ε → σ → Except π σ) : List ε → σ → Except π σ
  | [], s => .ok s
  | e :: es, s => undo e s >>= undoAll undo es

@[simp]
theorem undoAll_nil (undo : ε → σ → Except π σ) (s : σ) : undoAll undo [] s = .ok s :=
  rfl

theorem undoAll_cons (undo : ε → σ → Except π σ) (e : ε) (es : List ε) (s : σ) :
    undoAll undo (e :: es) s = undo e s >>= undoAll undo es :=
  rfl

@[simp]
theorem undoAll_singleton (undo : ε → σ → Except π σ) (e : ε) (s : σ) :
    undoAll undo [e] s = undo e s := by
  rw [undoAll_cons]
  cases undo e s <;> rfl

theorem undoAll_append (undo : ε → σ → Except π σ) (es fs : List ε) (s : σ) :
    undoAll undo (es ++ fs) s = undoAll undo es s >>= undoAll undo fs := by
  induction es generalizing s with
  | nil => rfl
  | cons e es ih =>
    simp only [List.cons_append, undoAll_cons, bind_assoc]
    congr 1
    funext s'
    exact ih s'

/-- An undo respects `view` when states with the same view give results with
the same view, or the same failure. -/
def Respects (undo : ε → σ → Except π σ) (view : σ → V) : Prop :=
  ∀ e s t, view s = view t → (undo e s).map view = (undo e t).map view

/-- Undos that respect a view undo whole lists of entries alike on states with
the same view. -/
theorem undoAll_congr {undo : ε → σ → Except π σ} {view : σ → V} (respects : Respects undo view)
    (es : List ε) {s t : σ} (same : view s = view t) :
    (undoAll undo es s).map view = (undoAll undo es t).map view := by
  induction es generalizing s t with
  | nil => simp [Except.map, same]
  | cons e es ih =>
    have first := respects e s t same
    simp only [undoAll_cons]
    cases hs : undo e s with
    | error err =>
      cases ht : undo e t with
      | error err' => simp_all [Except.map]
      | ok t' => simp_all [Except.map]
    | ok s' =>
      cases ht : undo e t with
      | error err' => simp_all [Except.map]
      | ok t' =>
        simp only [hs, ht, Except.map, Except.ok.injEq] at first
        exact ih first

/-- When undoing the newest entries `fresh` from `s` gives a state with the
view of `s₀`, undoing `fresh` and then older entries `old` from `s` ends as
undoing `old` from `s₀`. -/
theorem undoAll_append_of_restores {undo : ε → σ → Except π σ} {view : σ → V}
    (respects : Respects undo view) (fresh old : List ε) {s s₀ : σ}
    (restores : (undoAll undo fresh s).map view = .ok (view s₀)) :
    (undoAll undo (fresh ++ old) s).map view = (undoAll undo old s₀).map view := by
  rw [undoAll_append]
  cases undone : undoAll undo fresh s with
  | error err => simp [undone, Except.map] at restores
  | ok s' =>
    simp only [undone, Except.map, Except.ok.injEq] at restores
    exact undoAll_congr respects old restores

end Ebakus.Lang.UndoLog
