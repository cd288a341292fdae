/-
# Reverting to a snapshot restores what the getters see

Every getter of `StateDB` reads an account through what its state object
shows: the nonce, the balance, the code and its hash, the storage slot by slot,
and the suicided and deleted flags. Two objects that show the same are alike
for the getters, and for every journal entry's `revert`, even when one holds a
code or a storage slot in a cache where the other reads the database. This
module proves that reverting restores that view of the state:

* each journal entry's `revert` reads and writes the state only through its
  view (`revertEntry_respects`);
* each call appends entries whose reverts, newest first, give back the view
  the state had before the call (`Journalled`);
* so, along any sequence of calls, a revision still valid can be reverted to,
  and the revert gives back the view of the state when it was taken
  (`RevertToSnapshot_restores`).

The view includes the trie, which no call writes. The journal, the revisions
and the caches are not part of it.
-/

import Ebakus.Core.State.StateDB

namespace Ebakus.Core.State

open Ebakus.Lang Ebakus.Common Ebakus.Lang.UndoLog

/-- What the getters read of a state object. -/
structure ObjectView where
  address : Address
  Nonce : UInt64
  Balance : Int
  CodeHash : Hash
  Code : List UInt8
  Storage : Hash → Hash
  suicided : Bool
  deleted : Bool

namespace stateObject

variable (db : Database) (obj : stateObject)

/-- The view of an object. -/
def view : ObjectView :=
  ⟨obj.address, obj.data.Nonce, obj.data.Balance, obj.data.CodeHash, obj.Code db, obj.GetState db,
    obj.suicided, obj.deleted⟩

@[simp]
theorem view_setBalance (amount : Int) :
    (obj.setBalance amount).view db = { obj.view db with Balance := amount } :=
  rfl

@[simp]
theorem view_setNonce (nonce : UInt64) :
    (obj.setNonce nonce).view db = { obj.view db with Nonce := nonce } :=
  rfl

@[simp]
theorem view_setCode (codeHash : Hash) (code : List UInt8) :
    (obj.setCode codeHash code).view db = { obj.view db with CodeHash := codeHash, Code := code } :=
  rfl

theorem GetState_setState (key value : Hash) :
    (obj.setState key value).GetState db = Function.update (obj.GetState db) key value := by
  funext slot
  by_cases same : slot = key
  · subst same
    simp [GetState, setState]
  · simp [GetState, GetCommittedState, setState, same]

@[simp]
theorem view_setState (key value : Hash) :
    (obj.setState key value).view db =
      { obj.view db with Storage := Function.update (obj.GetState db) key value } := by
  simp only [view, GetState_setState]
  rfl

@[simp]
theorem view_suicided (amount : Int) (suicided : Bool) :
    ({ obj.setBalance amount with suicided } : stateObject).view db =
      { obj.view db with Balance := amount, suicided } :=
  rfl

@[simp]
theorem address_view : (obj.view db).address = obj.address :=
  rfl

@[simp]
theorem deleted_view : (obj.view db).deleted = obj.deleted :=
  rfl

end stateObject

namespace StateDB

variable {ℓ : Type} (db : Database)

/-- What the getters read of a state database. -/
structure View (ℓ : Type) where
  trie : Address → Option Account
  live : Address → Option ObjectView
  refund : UInt64
  thash : Hash
  logs : Hash → List (ℓ × Nat)
  logSize : Nat
  preimages : Hash → Option (List UInt8)

/-- The view of a state database: the trie, and the view of the object each
address has, deleted or not. -/
def view (s : StateDB ℓ) : View ℓ :=
  ⟨s.trie, fun addr => (s.getDeletedStateObject addr).map (·.view db), s.refund, s.thash, s.logs,
    s.logSize, s.preimages⟩

@[simp]
theorem trie_view (s : StateDB ℓ) : (s.view db).trie = s.trie :=
  rfl

@[simp]
theorem view_append (s : StateDB ℓ) (entry : journalEntry) : (s.append entry).view db = s.view db :=
  rfl

theorem view_setStateObject (s : StateDB ℓ) (obj : stateObject) :
    (s.setStateObject obj).view db =
      { s.view db with live := Function.update (s.view db).live obj.address (some (obj.view db)) } := by
  simp only [view, setStateObject, View.mk.injEq, true_and, and_true]
  funext addr
  by_cases same : addr = obj.address
  · subst same
    simp [getDeletedStateObject]
  · simp [getDeletedStateObject, same]

theorem view_deleteStateObject (s : StateDB ℓ) (account : Address) :
    ({ s with stateObjects := Function.update s.stateObjects account none } : StateDB ℓ).view db =
      { s.view db with
        live := Function.update (s.view db).live account
          (((s.view db).trie account).map fun data => (newObject account data).view db) } := by
  simp only [view, View.mk.injEq, true_and, and_true]
  funext addr
  by_cases same : addr = account
  · subst same
    simp [getDeletedStateObject, Option.map_map, Function.comp_def]
  · simp [getDeletedStateObject, same]

@[simp]
theorem view_refund (s : StateDB ℓ) (refund : UInt64) :
    ({ s with refund } : StateDB ℓ).view db = { s.view db with refund } :=
  rfl

@[simp]
theorem view_logs (s : StateDB ℓ) (logs : Hash → List (ℓ × Nat)) (logSize : Nat) :
    ({ s with logs, logSize } : StateDB ℓ).view db = { s.view db with logs, logSize } :=
  rfl

@[simp]
theorem view_preimages (s : StateDB ℓ) (preimages : Hash → Option (List UInt8)) :
    ({ s with preimages } : StateDB ℓ).view db = { s.view db with preimages } :=
  rfl

/-- The view of the object `getStateObject` finds. -/
theorem map_view_getStateObject (s : StateDB ℓ) (addr : Address) :
    (s.getStateObject addr).map (·.view db) = ((s.view db).live addr).filter (!·.deleted) := by
  simp only [getStateObject, view]
  cases s.getDeletedStateObject addr <;> simp [Option.filter]

/-- States with the same view find objects with the same view. -/
theorem getStateObject_congr {s t : StateDB ℓ} (same : s.view db = t.view db) (addr : Address) :
    (s.getStateObject addr).map (·.view db) = (t.getStateObject addr).map (·.view db) := by
  rw [map_view_getStateObject, map_view_getStateObject, same]

/-- Objects with the same view, written into states with the same view, give
states with the same view. -/
theorem setStateObject_congr {s t : StateDB ℓ} (same : s.view db = t.view db) {obj obj' : stateObject}
    (alike : obj.view db = obj'.view db) : (s.setStateObject obj).view db = (t.setStateObject obj').view db := by
  have address : obj.address = obj'.address := by
    rw [← stateObject.address_view db obj, alike, stateObject.address_view]
  rw [view_setStateObject, view_setStateObject, same, address, alike]

/-- A revert of an object's field respects views when the change does. -/
theorem revertObject_congr {s t : StateDB ℓ} (same : s.view db = t.view db) (account : Address)
    {set : stateObject → stateObject}
    (alike : ∀ obj obj', obj.view db = obj'.view db → (set obj).view db = (set obj').view db) :
    (s.revertObject account set).map (view db) = (t.revertObject account set).map (view db) := by
  have found := getStateObject_congr db same account
  unfold revertObject
  cases hs : s.getStateObject account with
  | none =>
    cases ht : t.getStateObject account with
    | none => rfl
    | some obj' => simp [hs, ht] at found
  | some obj =>
    cases ht : t.getStateObject account with
    | none => simp [hs, ht] at found
    | some obj' =>
      simp only [hs, ht, Option.map_some, Option.some.injEq] at found
      simp only [Except.map, Except.ok.injEq]
      exact setStateObject_congr db same (alike obj obj' found)

/-- Every journal entry's `revert` reads and writes a state only through its
view. -/
theorem revertEntry_respects : Respects (revertEntry (ℓ := ℓ)) (view db) := by
  intro entry s t same
  have fields := same
  simp only [view, View.mk.injEq] at fields
  obtain ⟨trie, -, refund, thash, logs, logSize, preimages⟩ := fields
  cases entry with
  | createObjectChange account =>
    simp only [revertEntry, Except.map, Except.ok.injEq]
    rw [view_deleteStateObject, view_deleteStateObject, same]
  | resetObjectChange prev =>
    simp only [revertEntry, Except.map, Except.ok.injEq]
    rw [view_setStateObject, view_setStateObject, same]
  | suicideChange account prev prevbalance =>
    have found := getStateObject_congr db same account
    simp only [revertEntry]
    cases hs : s.getStateObject account with
    | none =>
      cases ht : t.getStateObject account with
      | none => simp [Except.map, same]
      | some obj' => simp [hs, ht] at found
    | some obj =>
      cases ht : t.getStateObject account with
      | none => simp [hs, ht] at found
      | some obj' =>
        simp only [hs, ht, Option.map_some, Option.some.injEq] at found
        simp only [Except.map, Except.ok.injEq]
        exact setStateObject_congr db same (by simp [found])
  | balanceChange account prev => exact revertObject_congr db same account (by simp_all)
  | nonceChange account prev => exact revertObject_congr db same account (by simp_all)
  | storageChange account key prevalue =>
    refine revertObject_congr db same account fun obj obj' alike => ?_
    have storage := congrArg ObjectView.Storage alike
    simp only [stateObject.view] at storage
    simp [alike, storage]
  | codeChange account prevcode prevhash => exact revertObject_congr db same account (by simp_all)
  | refundChange prev => simp [revertEntry, Except.map, same]
  | addLogChange txhash =>
    simp only [revertEntry, logs, logSize]
    split
    · rfl
    · simp [Except.map, same]
  | addPreimageChange hash => simp [revertEntry, Except.map, same, preimages]
  | touchChange account => simp [revertEntry, Except.map, same]

section Keyed

variable {db}

/-- Every live object sits under its own address, where `setStateObject`
puts it. -/
def Keyed (s : StateDB ℓ) : Prop :=
  ∀ addr obj, s.stateObjects addr = some obj → obj.address = addr

theorem Keyed.address_getDeletedStateObject {s : StateDB ℓ} (keyed : s.Keyed) {addr : Address}
    {obj : stateObject} (found : s.getDeletedStateObject addr = some obj) : obj.address = addr := by
  unfold getDeletedStateObject at found
  split at found
  · rename_i live
    cases found
    exact keyed addr obj live
  · obtain ⟨data, -, rfl⟩ := Option.map_eq_some_iff.mp found
    rfl

theorem Keyed.address_getStateObject {s : StateDB ℓ} (keyed : s.Keyed) {addr : Address}
    {obj : stateObject} (found : s.getStateObject addr = some obj) : obj.address = addr :=
  keyed.address_getDeletedStateObject (Option.filter_eq_some_iff.mp found).1

theorem Keyed.setStateObject {s : StateDB ℓ} (keyed : s.Keyed) (obj : stateObject) :
    (s.setStateObject obj).Keyed := by
  intro addr obj' live
  by_cases same : addr = obj.address
  · subst same
    simp only [StateDB.setStateObject, Function.update_self, Option.some.injEq] at live
    rw [← live]
  · simp only [StateDB.setStateObject, Function.update_of_ne same] at live
    exact keyed addr obj' live

theorem Keyed.of_revertEntry {s s' : StateDB ℓ} (keyed : s.Keyed) {entry : journalEntry}
    (reverted : revertEntry entry s = .ok s') : s'.Keyed := by
  cases entry with
  | createObjectChange account =>
    cases reverted
    intro addr obj live
    by_cases same : addr = account
    · subst same
      simp at live
    · simp only [Function.update_of_ne same] at live
      exact keyed addr obj live
  | resetObjectChange prev =>
    cases reverted
    exact keyed.setStateObject prev
  | suicideChange account prev prevbalance =>
    simp only [StateDB.revertEntry] at reverted
    split at reverted <;> cases reverted
    · exact keyed.setStateObject _
    · exact keyed
  | balanceChange | nonceChange | storageChange | codeChange =>
    simp only [StateDB.revertEntry, revertObject] at reverted
    split at reverted <;> cases reverted
    exact keyed.setStateObject _
  | addLogChange txhash =>
    simp only [StateDB.revertEntry] at reverted
    split at reverted <;> cases reverted
    exact keyed
  | refundChange | addPreimageChange | touchChange =>
    cases reverted
    exact keyed

theorem Keyed.of_undoAll {s s' : StateDB ℓ} (keyed : s.Keyed) {entries : List journalEntry}
    (reverted : undoAll revertEntry entries s = .ok s') : s'.Keyed := by
  induction entries generalizing s with
  | nil => cases reverted; exact keyed
  | cons entry entries ih =>
    obtain ⟨s₁, first, rest⟩ := bind_eq_ok reverted
    exact ih (keyed.of_revertEntry first) rest

end Keyed

theorem live_of_getStateObject {s : StateDB ℓ} {addr : Address} {obj : stateObject}
    (found : s.getStateObject addr = some obj) : (s.view db).live addr = some (obj.view db) := by
  simp only [view, (Option.filter_eq_some_iff.mp found).1, Option.map_some]

theorem not_deleted_of_getStateObject {s : StateDB ℓ} {addr : Address} {obj : stateObject}
    (found : s.getStateObject addr = some obj) : obj.deleted = false := by
  simpa using (Option.filter_eq_some_iff.mp found).2

theorem getStateObject_setStateObject (s : StateDB ℓ) {obj : stateObject} (live : obj.deleted = false) :
    (s.setStateObject obj).getStateObject obj.address = some obj := by
  simp [getStateObject, getDeletedStateObject, setStateObject, Option.filter, live]

section Journalled

/-- `s'` follows `s` by journalled changes: the journal grew by entries whose
reverts, newest first, give back the view of `s`; the revisions are those of
`s`, and objects stay under their addresses. -/
structure Journalled (s s' : StateDB ℓ) : Prop where
  undone : ∃ fresh, s'.journal = s.journal ++ fresh ∧
    (undoAll revertEntry fresh.reverse s').map (view db) = .ok (s.view db)
  validRevisions : s'.validRevisions = s.validRevisions
  nextRevisionId : s'.nextRevisionId = s.nextRevisionId
  keyed : s.Keyed → s'.Keyed

theorem Journalled.refl (s : StateDB ℓ) : Journalled db s s :=
  ⟨⟨[], by simp, by simp [Except.map]⟩, rfl, rfl, id⟩

theorem Journalled.trans {s s₁ s₂ : StateDB ℓ} (first : Journalled db s s₁)
    (second : Journalled db s₁ s₂) : Journalled db s s₂ := by
  obtain ⟨⟨fresh₁, journal₁, undone₁⟩, revisions₁, next₁, keyed₁⟩ := first
  obtain ⟨⟨fresh₂, journal₂, undone₂⟩, revisions₂, next₂, keyed₂⟩ := second
  refine ⟨⟨fresh₁ ++ fresh₂, by rw [journal₂, journal₁, List.append_assoc], ?_⟩,
    revisions₂.trans revisions₁, next₂.trans next₁, keyed₂ ∘ keyed₁⟩
  rw [List.reverse_append, undoAll_append_of_restores (revertEntry_respects db) _ _ undone₂]
  exact undone₁

/-- One entry appended, whose revert gives back the view. -/
theorem Journalled.single {s s' : StateDB ℓ} (entry : journalEntry)
    (journal : s'.journal = s.journal ++ [entry])
    (undone : (revertEntry entry s').map (view db) = .ok (s.view db))
    (validRevisions : s'.validRevisions = s.validRevisions)
    (nextRevisionId : s'.nextRevisionId = s.nextRevisionId) (keyed : s.Keyed → s'.Keyed) :
    Journalled db s s' := by
  refine ⟨⟨[entry], journal, ?_⟩, validRevisions, nextRevisionId, keyed⟩
  simpa using undone

/-- A field of a found object changed after its entry: the entry's revert,
which changes the field back by `restore`, gives back the view. -/
theorem Journalled.write {s : StateDB ℓ} (keyed : s.Keyed) {addr : Address} {obj : stateObject}
    (found : s.getStateObject addr = some obj) (entry : journalEntry)
    (set restore : stateObject → stateObject)
    (reverts : ∀ (t : StateDB ℓ) o, t.getStateObject addr = some o →
      revertEntry entry t = .ok (t.setStateObject (restore o)))
    (address : (set obj).address = obj.address) (deleted : (set obj).deleted = obj.deleted)
    (restores : (restore (set obj)).view db = obj.view db) :
    Journalled db s ((s.append entry).setStateObject (set obj)) := by
  have here : obj.address = addr := keyed.address_getStateObject found
  have restored : (restore (set obj)).address = addr := by
    rw [← stateObject.address_view db, restores, stateObject.address_view, here]
  have found' : ((s.append entry).setStateObject (set obj)).getStateObject addr = some (set obj) := by
    rw [← here, ← address]
    exact getStateObject_setStateObject _ (deleted.trans (not_deleted_of_getStateObject found))
  refine Journalled.single db entry rfl ?_ rfl rfl fun keyed => keyed.setStateObject _
  rw [reverts _ _ found']
  simp only [Except.map, Except.ok.injEq]
  rw [view_setStateObject, view_setStateObject, view_append, restored, address, here,
    Function.update_idem, restores, ← live_of_getStateObject db found, Function.update_eq_self]

/-- The revert of an entry on a found object sets the object back. -/
theorem revertObject_of_found {s : StateDB ℓ} {addr : Address} {obj : stateObject}
    (found : s.getStateObject addr = some obj) (set : stateObject → stateObject) :
    s.revertObject addr set = .ok (s.setStateObject (set obj)) := by
  simp [revertObject, found]

theorem setStateObject_setStateObject (s : StateDB ℓ) {obj obj' : stateObject}
    (same : obj.address = obj'.address) : (s.setStateObject obj).setStateObject obj' = s.setStateObject obj' := by
  simp [setStateObject, same, Function.update_idem]

theorem getDeletedStateObject_eq_none {s : StateDB ℓ} {addr : Address}
    (absent : s.getDeletedStateObject addr = none) : s.stateObjects addr = none ∧ s.trie addr = none := by
  unfold getDeletedStateObject at absent
  split at absent
  · cases absent
  · rename_i unloaded
    exact ⟨unloaded, Option.map_eq_none_iff.mp absent⟩

/-- `createObject` is undone by its entry, whatever object is then written at
the address. -/
theorem Journalled.createObject {s : StateDB ℓ} (keyed : s.Keyed) {addr : Address}
    {newobj : stateObject} {prev : Option stateObject} {s₁ : StateDB ℓ}
    (created : s.createObject db addr = (newobj, prev, s₁)) (obj : stateObject)
    (address : obj.address = addr) : Journalled db s (s₁.setStateObject obj) := by
  unfold StateDB.createObject at created
  cases replaced : s.getDeletedStateObject addr with
  | none =>
    simp only [replaced, Prod.mk.injEq] at created
    obtain ⟨rfl, rfl, rfl⟩ := created
    obtain ⟨-, noAccount⟩ := getDeletedStateObject_eq_none replaced
    have absent : (s.view db).live addr = none := by simp [view, replaced]
    refine Journalled.single db (.createObjectChange addr) rfl ?_ rfl rfl
      fun keyed => (keyed.setStateObject _).setStateObject _
    simp only [revertEntry, Except.map, Except.ok.injEq]
    rw [view_deleteStateObject, view_setStateObject, view_setStateObject, view_append, address,
      address_newObject, Function.update_idem, Function.update_idem, trie_view, noAccount, Option.map_none,
      ← absent, Function.update_eq_self]
  | some old =>
    simp only [replaced, Prod.mk.injEq] at created
    obtain ⟨rfl, rfl, rfl⟩ := created
    have here : old.address = addr := keyed.address_getDeletedStateObject replaced
    have live : (s.view db).live addr = some (old.view db) := by simp [view, replaced]
    refine Journalled.single db (.resetObjectChange old) rfl ?_ rfl rfl
      fun keyed => (keyed.setStateObject _).setStateObject _
    simp only [revertEntry, Except.map, Except.ok.injEq]
    rw [view_setStateObject, view_setStateObject, view_setStateObject, view_append, address, here,
      address_newObject, Function.update_idem, Function.update_idem, ← live, Function.update_eq_self]

/-- `GetOrNewStateObject` finds or creates the object, and what it creates is
undone by its entry. -/
theorem GetOrNewStateObject_spec {s : StateDB ℓ} (keyed : s.Keyed) {addr : Address}
    {obj : stateObject} {s₁ : StateDB ℓ} (got : s.GetOrNewStateObject db addr = (obj, s₁)) :
    Journalled db s s₁ ∧ s₁.getStateObject addr = some obj := by
  unfold StateDB.GetOrNewStateObject at got
  split at got
  · rename_i found
    simp only [Prod.mk.injEq] at got
    obtain ⟨rfl, rfl⟩ := got
    exact ⟨Journalled.refl db s, found⟩
  · rcases created : s.createObject db addr with ⟨newobj, prev, s₂⟩
    simp only [created, Prod.mk.injEq] at got
    obtain ⟨rfl, rfl⟩ := got
    have shape := created
    unfold StateDB.createObject at shape
    simp only [Prod.mk.injEq] at shape
    obtain ⟨rfl, -, rfl⟩ := shape
    refine ⟨?_, getStateObject_setStateObject _ rfl⟩
    have := Journalled.createObject db keyed created (newObject addr db.emptyAccount) rfl
    rwa [setStateObject_setStateObject _ rfl] at this

/-- `createObject` alone is undone by its entry. -/
theorem Journalled.createObject_self {s : StateDB ℓ} (keyed : s.Keyed) {addr : Address}
    {newobj : stateObject} {prev : Option stateObject} {s₁ : StateDB ℓ}
    (created : s.createObject db addr = (newobj, prev, s₁)) :
    Journalled db s s₁ ∧ s₁.getStateObject addr = some newobj := by
  have shape := created
  unfold StateDB.createObject at shape
  simp only [Prod.mk.injEq] at shape
  obtain ⟨rfl, -, rfl⟩ := shape
  refine ⟨?_, getStateObject_setStateObject _ rfl⟩
  have := Journalled.createObject db keyed created (newObject addr db.emptyAccount) rfl
  rwa [setStateObject_setStateObject _ rfl] at this

/-- A call that starts with `GetOrNewStateObject` is journalled when what it
does with the object is. -/
theorem Journalled.of_GetOrNew {s : StateDB ℓ} (keyed : s.Keyed) {addr : Address} {obj : stateObject}
    {s₁ s₂ : StateDB ℓ} (got : s.GetOrNewStateObject db addr = (obj, s₁))
    (step : s₁.Keyed → s₁.getStateObject addr = some obj → Journalled db s₁ s₂) : Journalled db s s₂ := by
  obtain ⟨first, found⟩ := GetOrNewStateObject_spec db keyed got
  exact first.trans db (step (first.keyed keyed) found)

/-- An entry whose revert changes nothing, as `touchChange`. -/
theorem Journalled.touch (s : StateDB ℓ) (account : Address) :
    Journalled db s (s.append (.touchChange account)) :=
  Journalled.single db _ rfl rfl rfl rfl id

theorem Journalled.setBalanceOf {s : StateDB ℓ} (keyed : s.Keyed) {addr : Address} {obj : stateObject}
    (found : s.getStateObject addr = some obj) (amount : Int) :
    Journalled db s (s.setBalanceOf obj amount) := by
  have here := keyed.address_getStateObject found
  subst here
  exact Journalled.write db keyed found _ (·.setBalance amount) (·.setBalance obj.data.Balance)
    (fun _ _ found' => revertObject_of_found found' _) rfl rfl rfl

theorem Journalled.CreateAccount {s : StateDB ℓ} (keyed : s.Keyed) (addr : Address) :
    Journalled db s (s.CreateAccount db addr) := by
  unfold StateDB.CreateAccount
  rcases created : s.createObject db addr with ⟨newobj, prev, s₁⟩
  have shape := created
  unfold StateDB.createObject at shape
  simp only [Prod.mk.injEq] at shape
  obtain ⟨rfl, -, -⟩ := shape
  cases prev with
  | some prev => exact Journalled.createObject db keyed created _ rfl
  | none => exact (Journalled.createObject_self db keyed created).1

theorem Journalled.AddBalance {s : StateDB ℓ} (keyed : s.Keyed) (addr : Address) (amount : Int) :
    Journalled db s (s.AddBalance db addr amount) := by
  rcases got : s.GetOrNewStateObject db addr with ⟨obj, s₁⟩
  rw [StateDB.AddBalance, got]
  dsimp only
  refine Journalled.of_GetOrNew db keyed got fun keyed₁ found => ?_
  split
  · split
    · exact Journalled.touch db s₁ _
    · exact Journalled.refl db s₁
  · exact Journalled.setBalanceOf db keyed₁ found _

theorem Journalled.SubBalance {s : StateDB ℓ} (keyed : s.Keyed) (addr : Address) (amount : Int) :
    Journalled db s (s.SubBalance db addr amount) := by
  rcases got : s.GetOrNewStateObject db addr with ⟨obj, s₁⟩
  rw [StateDB.SubBalance, got]
  dsimp only
  refine Journalled.of_GetOrNew db keyed got fun keyed₁ found => ?_
  split
  · exact Journalled.refl db s₁
  · exact Journalled.setBalanceOf db keyed₁ found _

theorem Journalled.SetBalance {s : StateDB ℓ} (keyed : s.Keyed) (addr : Address) (amount : Int) :
    Journalled db s (s.SetBalance db addr amount) := by
  rcases got : s.GetOrNewStateObject db addr with ⟨obj, s₁⟩
  rw [StateDB.SetBalance, got]
  dsimp only
  exact Journalled.of_GetOrNew db keyed got fun keyed₁ found => Journalled.setBalanceOf db keyed₁ found _

theorem Journalled.SetNonce {s : StateDB ℓ} (keyed : s.Keyed) (addr : Address) (nonce : UInt64) :
    Journalled db s (s.SetNonce db addr nonce) := by
  rcases got : s.GetOrNewStateObject db addr with ⟨obj, s₁⟩
  rw [StateDB.SetNonce, got]
  dsimp only
  refine Journalled.of_GetOrNew db keyed got fun keyed₁ found => ?_
  have here := keyed₁.address_getStateObject found
  subst here
  exact Journalled.write db keyed₁ found _ (·.setNonce nonce) (·.setNonce obj.data.Nonce)
    (fun _ _ found' => revertObject_of_found found' _) rfl rfl rfl

theorem Journalled.SetCode {s : StateDB ℓ} (keyed : s.Keyed) (addr : Address) (code : List UInt8) :
    Journalled db s (s.SetCode db addr code) := by
  rcases got : s.GetOrNewStateObject db addr with ⟨obj, s₁⟩
  rw [StateDB.SetCode, got]
  dsimp only
  refine Journalled.of_GetOrNew db keyed got fun keyed₁ found => ?_
  have here := keyed₁.address_getStateObject found
  subst here
  exact Journalled.write db keyed₁ found _ (·.setCode (db.Keccak256Hash code) code)
    (·.setCode obj.data.CodeHash (obj.Code db)) (fun _ _ found' => revertObject_of_found found' _) rfl rfl rfl

theorem Journalled.SetState {s : StateDB ℓ} (keyed : s.Keyed) (addr : Address) (key value : Hash) :
    Journalled db s (s.SetState db addr key value) := by
  rcases got : s.GetOrNewStateObject db addr with ⟨obj, s₁⟩
  rw [StateDB.SetState, got]
  dsimp only
  refine Journalled.of_GetOrNew db keyed got fun keyed₁ found => ?_
  have here := keyed₁.address_getStateObject found
  subst here
  split
  · exact Journalled.refl db s₁
  · refine Journalled.write db keyed₁ found _ (·.setState key value) (·.setState key (obj.GetState db key))
      (fun _ _ found' => revertObject_of_found found' _) rfl rfl ?_
    simp [stateObject.GetState_setState, Function.update_idem, Function.update_eq_self]
    rfl

theorem Journalled.Suicide {s : StateDB ℓ} (keyed : s.Keyed) (addr : Address) :
    Journalled db s (s.Suicide addr).2 := by
  unfold StateDB.Suicide
  split
  · exact Journalled.refl db s
  · rename_i obj found
    refine Journalled.write db keyed found _ (fun obj => { obj.setBalance 0 with suicided := true })
      (fun o => { o.setBalance obj.data.Balance with suicided := obj.suicided }) ?_ rfl
      (not_deleted_of_getStateObject found ▸ rfl) rfl
    intro t o found'
    simp [revertEntry, found']

theorem Journalled.AddRefund (s : StateDB ℓ) (gas : UInt64) : Journalled db s (s.AddRefund gas) :=
  Journalled.single db _ rfl (by simp [revertEntry, Except.map, StateDB.AddRefund]; rfl) rfl rfl id

theorem Journalled.AddLog (s : StateDB ℓ) (log : ℓ) : Journalled db s (s.AddLog log) := by
  refine Journalled.single db _ rfl ?_ rfl rfl id
  have added : (s.AddLog log).logs s.thash ≠ [] := by simp [StateDB.AddLog]
  simp only [revertEntry, if_neg added, Except.map, Except.ok.injEq]
  simp [StateDB.AddLog, Function.update_idem]
  rfl

theorem Journalled.AddPreimage (s : StateDB ℓ) (hash : Hash) (preimage : List UInt8) :
    Journalled db s (s.AddPreimage hash preimage) := by
  unfold StateDB.AddPreimage
  split
  · exact Journalled.refl db s
  · rename_i absent
    refine Journalled.single db _ rfl ?_ rfl rfl id
    have erased : Function.update s.preimages hash none = s.preimages := by
      rw [← absent, Function.update_eq_self]
    simp [revertEntry, Except.map, erased]
    rfl

theorem Journalled.SubRefund {s s' : StateDB ℓ} {gas : UInt64} (subtracted : s.SubRefund gas = .ok s') :
    Journalled db s s' := by
  unfold StateDB.SubRefund at subtracted
  split at subtracted
  · cases subtracted
  · cases subtracted
    exact Journalled.single db _ rfl (by simp [revertEntry, Except.map]; rfl) rfl rfl id

/-- What one call can do: a journalled change, a snapshot, or a revert. -/
theorem apply_cases {s s' : StateDB ℓ} (keyed : s.Keyed) {op : Op ℓ} (applied : s.apply db op = .ok s') :
    Journalled db s s' ∨ s' = s.Snapshot.2 ∨ ∃ revid, s.RevertToSnapshot revid = .ok s' := by
  cases op with
  | CreateAccount addr => cases applied; exact .inl (Journalled.CreateAccount db keyed addr)
  | AddBalance addr amount => cases applied; exact .inl (Journalled.AddBalance db keyed addr amount)
  | SubBalance addr amount => cases applied; exact .inl (Journalled.SubBalance db keyed addr amount)
  | SetBalance addr amount => cases applied; exact .inl (Journalled.SetBalance db keyed addr amount)
  | SetNonce addr nonce => cases applied; exact .inl (Journalled.SetNonce db keyed addr nonce)
  | SetCode addr code => cases applied; exact .inl (Journalled.SetCode db keyed addr code)
  | SetState addr key value => cases applied; exact .inl (Journalled.SetState db keyed addr key value)
  | Suicide addr => cases applied; exact .inl (Journalled.Suicide db keyed addr)
  | AddRefund gas => cases applied; exact .inl (Journalled.AddRefund db s gas)
  | SubRefund gas => exact .inl (Journalled.SubRefund db applied)
  | AddLog log => cases applied; exact .inl (Journalled.AddLog db s log)
  | AddPreimage hash preimage => cases applied; exact .inl (Journalled.AddPreimage db s hash preimage)
  | Snapshot => cases applied; exact .inr (.inl rfl)
  | RevertToSnapshot revid => exact .inr (.inr ⟨revid, applied⟩)

end Journalled

section Observe

/-- A getter that reads an object through its view agrees on states with the
same view. -/
theorem getter_congr {s t : StateDB ℓ} (same : s.view db = t.view db) (addr : Address) {β : Type}
    (f : ObjectView → β) :
    (s.getStateObject addr).map (fun obj => f (obj.view db)) =
      (t.getStateObject addr).map (fun obj => f (obj.view db)) := by
  have := congrArg (Option.map f) (getStateObject_congr db same addr)
  simpa [Option.map_map, Function.comp_def] using this

/-- States with the same view answer every getter alike. -/
theorem observe_eq_of_view {s t : StateDB ℓ} (same : s.view db = t.view db) :
    s.observe db = t.observe db := by
  have fields := same
  simp only [view, View.mk.injEq] at fields
  obtain ⟨-, -, refund, -, logs, -, preimages⟩ := fields
  have read := getter_congr db same
  simp only [observe, Observation.mk.injEq, refund, logs, preimages, and_true]
  refine ⟨?_, ?_, ?_, ?_, ?_, ?_, ?_, ?_⟩ <;> funext addr
  · exact congrArg (·.getD 0) (read addr ObjectView.Balance)
  · exact congrArg (·.getD 0) (read addr ObjectView.Nonce)
  · exact congrArg (·.getD []) (read addr ObjectView.Code)
  · exact congrArg (·.getD zeroHash) (read addr ObjectView.CodeHash)
  · funext key
    exact congrArg (·.getD zeroHash) (read addr fun view => view.Storage key)
  · simpa [Exist] using congrArg Option.isSome (read addr id)
  · exact congrArg (·.getD true) (read addr fun view => view.Nonce == 0 && view.Balance == 0 &&
      view.CodeHash == db.emptyCodeHash)
  · exact congrArg (·.getD false) (read addr ObjectView.suicided)

end Observe

section Revisions

/-- A revert leaves the journal and the revisions to `RevertToSnapshot`. -/
theorem revertEntry_frame {s s' : StateDB ℓ} {entry : journalEntry} (reverted : revertEntry entry s = .ok s') :
    s'.journal = s.journal ∧ s'.validRevisions = s.validRevisions ∧ s'.nextRevisionId = s.nextRevisionId := by
  cases entry with
  | suicideChange | addLogChange =>
    simp only [revertEntry] at reverted
    split at reverted <;> cases reverted <;> exact ⟨rfl, rfl, rfl⟩
  | balanceChange | nonceChange | storageChange | codeChange =>
    simp only [revertEntry, revertObject] at reverted
    split at reverted <;> cases reverted
    exact ⟨rfl, rfl, rfl⟩
  | createObjectChange | resetObjectChange | refundChange | addPreimageChange | touchChange =>
    cases reverted
    exact ⟨rfl, rfl, rfl⟩

theorem undoAll_frame {s s' : StateDB ℓ} {entries : List journalEntry}
    (reverted : undoAll revertEntry entries s = .ok s') :
    s'.journal = s.journal ∧ s'.validRevisions = s.validRevisions ∧ s'.nextRevisionId = s.nextRevisionId := by
  induction entries generalizing s with
  | nil => cases reverted; exact ⟨rfl, rfl, rfl⟩
  | cons entry entries ih =>
    obtain ⟨s₁, first, rest⟩ := bind_eq_ok reverted
    obtain ⟨journal₁, revisions₁, next₁⟩ := revertEntry_frame first
    obtain ⟨journal₂, revisions₂, next₂⟩ := ih rest
    exact ⟨journal₂.trans journal₁, revisions₂.trans revisions₁, next₂.trans next₁⟩

/-- What `RevertToSnapshot` does when it returns: the revision `sort.Search`
finds has the id asked for; the journal after its index is undone and cut, and
the revisions from it on are forgotten. -/
theorem RevertToSnapshot_spec {s s' : StateDB ℓ} {revid : Nat} (reverted : s.RevertToSnapshot revid = .ok s') :
    ∃ r u, s.validRevisions[s.validRevisions.findIdx fun r => revid ≤ r.id]? = some r ∧ r.id = revid ∧
      undoAll revertEntry (s.journal.drop r.journalIndex).reverse s = .ok u ∧
      s' = { u with
        journal := s.journal.take r.journalIndex
        validRevisions := s.validRevisions.take (s.validRevisions.findIdx fun r => revid ≤ r.id) } := by
  unfold StateDB.RevertToSnapshot at reverted
  dsimp only at reverted
  split at reverted
  · rename_i r found
    split at reverted
    · rename_i named
      obtain ⟨u, undone, rest⟩ := bind_eq_ok reverted
      unfold revertJournal at undone
      obtain ⟨u', cut, last⟩ := bind_eq_ok undone
      cases last
      cases rest
      exact ⟨r, u', found, named, cut, rfl⟩
    · cases reverted
  · cases reverted

/-- What holds of every state database a program can hold: objects under
their own addresses, and revisions in the order they were taken, each with
an id below the next one and an index within the journal. -/
structure WellFormed (s : StateDB ℓ) : Prop where
  keyed : s.Keyed
  ids : s.validRevisions.Pairwise fun r r' => r.id < r'.id
  fresh : ∀ r ∈ s.validRevisions, r.id < s.nextRevisionId
  indices : s.validRevisions.Pairwise fun r r' => r.journalIndex ≤ r'.journalIndex
  within : ∀ r ∈ s.validRevisions, r.journalIndex ≤ s.journal.length

variable {db}

theorem WellFormed.New (trie : Address → Option Account) : (StateDB.New trie : StateDB ℓ).WellFormed :=
  ⟨(fun _ _ absent => nomatch absent), .nil, by simp [StateDB.New], .nil, by simp [StateDB.New]⟩

theorem WellFormed.journalled {s s' : StateDB ℓ} (wf : s.WellFormed) (step : Journalled db s s') :
    s'.WellFormed := by
  obtain ⟨⟨fresh, journal, -⟩, revisions, next, keyed⟩ := step
  refine ⟨keyed wf.keyed, revisions ▸ wf.ids, ?_, revisions ▸ wf.indices, ?_⟩
  · intro r valid
    rw [next]
    exact wf.fresh r (revisions ▸ valid)
  · intro r valid
    rw [journal, List.length_append]
    exact Nat.le_add_right_of_le (wf.within r (revisions ▸ valid))

theorem WellFormed.Snapshot {s : StateDB ℓ} (wf : s.WellFormed) : s.Snapshot.2.WellFormed := by
  refine ⟨wf.keyed, ?_, ?_, ?_, ?_⟩
  · exact List.pairwise_append.mpr ⟨wf.ids, List.pairwise_singleton _ _, fun r valid r' new => by
      simp only [List.mem_singleton] at new
      subst new
      exact wf.fresh r valid⟩
  · simp only [StateDB.Snapshot, List.mem_append, List.mem_singleton]
    rintro r (valid | rfl)
    · exact Nat.lt_succ_of_lt (wf.fresh r valid)
    · exact Nat.lt_succ_self _
  · exact List.pairwise_append.mpr ⟨wf.indices, List.pairwise_singleton _ _, fun r valid r' new => by
      simp only [List.mem_singleton] at new
      subst new
      exact wf.within r valid⟩
  · simp only [StateDB.Snapshot, List.mem_append, List.mem_singleton]
    rintro r (valid | rfl)
    · exact wf.within r valid
    · exact Nat.le_refl _

theorem WellFormed.RevertToSnapshot {s s' : StateDB ℓ} (wf : s.WellFormed) {revid : Nat}
    (reverted : s.RevertToSnapshot revid = .ok s') : s'.WellFormed := by
  obtain ⟨r, u, found, -, undone, rfl⟩ := RevertToSnapshot_spec reverted
  obtain ⟨-, -, next⟩ := undoAll_frame undone
  have target : r ∈ s.validRevisions.drop (s.validRevisions.findIdx fun r => revid ≤ r.id) := by
    obtain ⟨inRange, rfl⟩ := List.getElem?_eq_some_iff.mp found
    rw [List.drop_eq_getElem_cons inRange]
    exact List.mem_cons_self
  refine ⟨fun addr obj found => wf.keyed.of_undoAll undone addr obj found, wf.ids.sublist (List.take_sublist _ _), ?_,
    wf.indices.sublist (List.take_sublist _ _), ?_⟩
  · intro r' kept
    rw [next]
    exact wf.fresh r' (List.mem_of_mem_take kept)
  · intro r' kept
    have before := wf.indices.rel_of_mem_take_of_mem_drop kept target
    have inside := wf.within r (List.mem_of_mem_drop target)
    simp only [List.length_take]
    omega

theorem WellFormed.apply {s s' : StateDB ℓ} (wf : s.WellFormed) {op : Op ℓ}
    (applied : s.apply db op = .ok s') : s'.WellFormed := by
  rcases apply_cases db wf.keyed applied with step | rfl | ⟨revid, reverted⟩
  · exact wf.journalled step
  · exact wf.Snapshot
  · exact wf.RevertToSnapshot reverted

theorem WellFormed.run {s t : StateDB ℓ} (wf : s.WellFormed) {ops : List (Op ℓ)}
    (ran : s.run db ops = .ok t) : t.WellFormed := by
  induction ops generalizing s with
  | nil => cases ran; exact wf
  | cons op ops ih =>
    obtain ⟨s₁, applied, rest⟩ := bind_eq_ok ran
    exact ih (wf.apply applied) rest

/-- On revisions sorted by id, `sort.Search` for an id finds the revision
that has it. -/
theorem getElem?_findIdx_of_mem {revisions : List revision} (sorted : revisions.Pairwise fun r r' => r.id < r'.id)
    {r : revision} (mem : r ∈ revisions) : revisions[revisions.findIdx fun r' => r.id ≤ r'.id]? = some r := by
  induction revisions with
  | nil => cases mem
  | cons r' revisions ih =>
    obtain ⟨first, sorted⟩ := List.pairwise_cons.mp sorted
    by_cases found : r.id ≤ r'.id
    · rcases List.mem_cons.mp mem with rfl | later
      · simp [List.findIdx_cons]
      · exact absurd (first r later) (Nat.not_lt.mpr found)
    · have later : r ∈ revisions := by
        rcases List.mem_cons.mp mem with rfl | later
        · exact absurd (Nat.le_refl _) found
        · exact later
      simp [List.findIdx_cons, found, ih sorted later]

/-- On revisions sorted by id, those before the one `sort.Search` finds are
those with a smaller id. -/
theorem take_findIdx_eq_filter {revisions : List revision} (sorted : revisions.Pairwise fun r r' => r.id < r'.id)
    (revid : Nat) :
    revisions.take (revisions.findIdx fun r => revid ≤ r.id) = revisions.filter fun r => r.id < revid := by
  induction revisions with
  | nil => rfl
  | cons r revisions ih =>
    obtain ⟨first, sorted⟩ := List.pairwise_cons.mp sorted
    by_cases found : revid ≤ r.id
    · simp only [List.findIdx_cons, found, decide_true, cond_true, List.take_zero, List.filter_cons,
        Nat.not_lt.mpr found, decide_false]
      refine (List.filter_eq_nil_iff.mpr fun r' later => ?_).symm
      simpa using Nat.le_of_lt (Nat.lt_of_le_of_lt found (first r' later))
    · simp [List.findIdx_cons, found, ih sorted, Nat.lt_of_not_le found]

/-- `RevertToSnapshot` on a revision the search finds with the id asked for,
whose journal reverts. -/
theorem RevertToSnapshot_of_found {s u : StateDB ℓ} {revid : Nat} {r : revision}
    (found : s.validRevisions[s.validRevisions.findIdx fun r => revid ≤ r.id]? = some r) (named : r.id = revid)
    (undone : undoAll revertEntry (s.journal.drop r.journalIndex).reverse s = .ok u) :
    s.RevertToSnapshot revid = .ok { u with
      journal := s.journal.take r.journalIndex
      validRevisions := s.validRevisions.take (s.validRevisions.findIdx fun r => revid ≤ r.id) } := by
  unfold StateDB.RevertToSnapshot revertJournal
  simp [found, named, undone]

end Revisions

@[simp]
theorem journal_Snapshot (s : StateDB ℓ) : s.Snapshot.2.journal = s.journal :=
  rfl

@[simp]
theorem validRevisions_Snapshot (s : StateDB ℓ) :
    s.Snapshot.2.validRevisions = s.validRevisions ++ [⟨s.nextRevisionId, s.journal.length⟩] :=
  rfl

@[simp]
theorem nextRevisionId_Snapshot (s : StateDB ℓ) : s.Snapshot.2.nextRevisionId = s.nextRevisionId + 1 :=
  rfl

@[simp]
theorem view_Snapshot (s : StateDB ℓ) : s.Snapshot.2.view db = s.view db :=
  rfl

section Restore

/-- What carries one revision through a run: while the revision with id
`rid` is valid, undoing the journal after its index gives back the view `v`. -/
structure Restorable (v : View ℓ) (rid : Nat) (s : StateDB ℓ) : Prop where
  below : rid < s.nextRevisionId
  restores : ∀ r ∈ s.validRevisions, r.id = rid →
    (undoAll revertEntry (s.journal.drop r.journalIndex).reverse s).map (view db) = .ok v

variable {db} {v : View ℓ} {rid : Nat}

/-- Right after `Snapshot`, its revision restores the view of that moment. -/
theorem Restorable.Snapshot {s : StateDB ℓ} (wf : s.WellFormed) :
    Restorable db (s.view db) s.Snapshot.1 s.Snapshot.2 := by
  refine ⟨Nat.lt_succ_self _, ?_⟩
  simp only [validRevisions_Snapshot, List.mem_append, List.mem_singleton]
  rintro r (valid | rfl) named
  · exact absurd named (Nat.ne_of_lt (wf.fresh r valid))
  · simp [Except.map]

theorem Restorable.journalled {s s' : StateDB ℓ} (wf : s.WellFormed) (kept : Restorable db v rid s)
    (step : Journalled db s s') : Restorable db v rid s' := by
  obtain ⟨⟨fresh, journal, undone⟩, revisions, next, -⟩ := step
  refine ⟨next ▸ kept.below, fun r valid named => ?_⟩
  rw [revisions] at valid
  rw [journal, List.drop_append_of_le_length (wf.within r valid), List.reverse_append,
    undoAll_append_of_restores (revertEntry_respects db) _ _ undone]
  exact kept.restores r valid named

theorem Restorable.Snapshot_step {s : StateDB ℓ} (kept : Restorable db v rid s) :
    Restorable db v rid s.Snapshot.2 := by
  refine ⟨Nat.lt_succ_of_lt kept.below, ?_⟩
  simp only [validRevisions_Snapshot, List.mem_append, List.mem_singleton]
  rintro r (valid | rfl) named
  · rw [journal_Snapshot, undoAll_congr (revertEntry_respects db) _ (view_Snapshot db s)]
    exact kept.restores r valid named
  · exact absurd named (Nat.ne_of_gt kept.below)

/-- A revert to another revision keeps the invariant: the revisions it leaves
valid have indices up to the one it cuts the journal at, so their undo starts
with the undo the revert did. -/
theorem Restorable.RevertToSnapshot {s s' : StateDB ℓ} (wf : s.WellFormed) (kept : Restorable db v rid s)
    {revid : Nat} (reverted : s.RevertToSnapshot revid = .ok s') : Restorable db v rid s' := by
  obtain ⟨r₀, u, found, -, undone, result⟩ := RevertToSnapshot_spec reverted
  obtain ⟨-, -, next⟩ := undoAll_frame undone
  have journal : s'.journal = s.journal.take r₀.journalIndex := by rw [result]
  have revisions : s'.validRevisions = s.validRevisions.take (s.validRevisions.findIdx fun r => revid ≤ r.id) := by
    rw [result]
  have restored : (undoAll revertEntry (s.journal.drop r₀.journalIndex).reverse s).map (view db) =
      .ok (s'.view db) := by
    rw [undone, result]
    rfl
  have target : r₀ ∈ s.validRevisions.drop (s.validRevisions.findIdx fun r => revid ≤ r.id) := by
    obtain ⟨inRange, rfl⟩ := List.getElem?_eq_some_iff.mp found
    rw [List.drop_eq_getElem_cons inRange]
    exact List.mem_cons_self
  refine ⟨by rw [result]; exact next ▸ kept.below, fun r valid named => ?_⟩
  rw [revisions] at valid
  have before := wf.indices.rel_of_mem_take_of_mem_drop valid target
  have split : s.journal.drop r.journalIndex =
      (s.journal.take r₀.journalIndex).drop r.journalIndex ++ s.journal.drop r₀.journalIndex := by
    rw [← List.drop_append_of_le_length (by simpa using ⟨before, wf.within r (List.mem_of_mem_take valid)⟩),
      List.take_append_drop]
  have whole := kept.restores r (List.mem_of_mem_take valid) named
  rw [split, List.reverse_append, undoAll_append_of_restores (revertEntry_respects db) _ _ restored] at whole
  rw [journal]
  exact whole

theorem Restorable.apply {s s' : StateDB ℓ} (wf : s.WellFormed) (kept : Restorable db v rid s) {op : Op ℓ}
    (applied : s.apply db op = .ok s') : Restorable db v rid s' := by
  rcases apply_cases db wf.keyed applied with step | rfl | ⟨revid, reverted⟩
  · exact kept.journalled wf step
  · exact kept.Snapshot_step
  · exact kept.RevertToSnapshot wf reverted

/-- The run lemma: a revision keeps restoring its view through any run. -/
theorem Restorable.run {s t : StateDB ℓ} (wf : s.WellFormed) (kept : Restorable db v rid s)
    {ops : List (Op ℓ)} (ran : s.run db ops = .ok t) : Restorable db v rid t := by
  induction ops generalizing s with
  | nil => cases ran; exact kept
  | cons op ops ih =>
    obtain ⟨s₁, applied, rest⟩ := bind_eq_ok ran
    exact ih (wf.apply applied) (kept.apply wf applied) rest

end Restore

/-- Reverting to a snapshot taken in a run, while its revision is still valid,
gives back every getter's value of the moment of the snapshot; the revisions
taken before it stay valid and those taken after it are dropped. -/
theorem RevertToSnapshot_restores_snapshot {s : StateDB ℓ} (wf : s.WellFormed) (ops : List (Op ℓ))
    {t : StateDB ℓ} (ran : s.Snapshot.2.run db ops = .ok t)
    (valid : s.Snapshot.1 ∈ t.validRevisions.map revision.id) :
    ∃ u, t.RevertToSnapshot s.Snapshot.1 = .ok u ∧ u.observe db = s.Snapshot.2.observe db ∧
      u.validRevisions = t.validRevisions.filter fun r => r.id < s.Snapshot.1 := by
  have wfRun := wf.Snapshot.run ran
  have kept := (Restorable.Snapshot wf).run wf.Snapshot ran
  obtain ⟨r, mem, named⟩ := List.mem_map.mp valid
  have found := getElem?_findIdx_of_mem wfRun.ids mem
  rw [named] at found
  obtain ⟨u, undone, restored⟩ : ∃ u, undoAll revertEntry (t.journal.drop r.journalIndex).reverse t = .ok u ∧
      u.view db = s.view db := by
    have restores := kept.restores r mem named
    cases undone : undoAll revertEntry (t.journal.drop r.journalIndex).reverse t with
    | error err => simp [undone, Except.map] at restores
    | ok u => exact ⟨u, rfl, by simpa [undone, Except.map] using restores⟩
  refine ⟨_, RevertToSnapshot_of_found found named undone, ?_, take_findIdx_eq_filter wfRun.ids _⟩
  exact observe_eq_of_view db restored

/-- A snapshot of a fresh database, then a balance, a nested snapshot, a
nonce, a suicide and a re-creation: the revert to the first snapshot gives
back the getters of the fresh database and drops both revisions. -/
theorem RevertToSnapshot_restores_snapshot_of_suicide :
    ∃ t u, (New (fun _ => none) : StateDB Unit).Snapshot.2.run ⟨fun _ => [], fun _ _ _ => zeroHash, fun _ => zeroHash⟩
        [.AddBalance (BytesToAddress [1]) 5, .Snapshot, .SetNonce (BytesToAddress [1]) 3,
          .Suicide (BytesToAddress [1]), .CreateAccount (BytesToAddress [1])] = .ok t ∧
      t.RevertToSnapshot 0 = .ok u ∧
      u.observe ⟨fun _ => [], fun _ _ _ => zeroHash, fun _ => zeroHash⟩ =
        (New (fun _ => none) : StateDB Unit).Snapshot.2.observe ⟨fun _ => [], fun _ _ _ => zeroHash, fun _ => zeroHash⟩ ∧
      u.validRevisions = [] := by
  obtain ⟨u, reverted, observed, revisions⟩ :=
    RevertToSnapshot_restores_snapshot ⟨fun _ => [], fun _ _ _ => zeroHash, fun _ => zeroHash⟩
      (@WellFormed.New Unit (fun _ => none))
      [.AddBalance (BytesToAddress [1]) 5, .Snapshot, .SetNonce (BytesToAddress [1]) 3,
        .Suicide (BytesToAddress [1]), .CreateAccount (BytesToAddress [1])] rfl (by decide)
  exact ⟨_, u, rfl, reverted, observed, by rw [revisions]; decide⟩

end StateDB

end Ebakus.Core.State
