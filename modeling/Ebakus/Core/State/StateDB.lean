/-
# The state database and its journal (`core/state/statedb.go`,
`core/state/state_object.go`, `core/state/journal.go`)

`StateDB` keeps the accounts a block changes as live state objects over the
account trie, with the refund counter, the logs and the SHA3 preimages of the
running transaction. Every change appends an entry to the journal that can
undo it; `Snapshot` names the journal's length, and `RevertToSnapshot` undoes
the entries after that length, newest first, and forgets the revisions taken
since.

The trie, the contract code store and the committed storage are read only;
the functions that write them (`IntermediateRoot`, `Commit`) and `Finalise`,
which ends the journal, are outside this model. So are the caches that only
save work: loading an account from the trie into the live objects (the model
reads the trie wherever the live map has no object), the storage read cache,
the dirty-address counters of the journal and the `stateObjectsDirty` set.
`SetStorage` and its fake storage, a debugging aid, are left out.

A log is stored with the index `AddLog` gives it; its block hash and
transaction index are constant between two calls of `Prepare`.
-/

import Ebakus.Common.Types
import Ebakus.Lang.UndoLog

namespace Ebakus.Core.State

open Ebakus.Lang Ebakus.Common

/-- `common.Hash{}`. -/
def zeroHash : Hash :=
  BytesToHash []

/-- `emptyRoot`: the root of the empty trie. -/
def emptyRoot : Hash :=
  ⟨[0x56, 0xe8, 0x1f, 0x17, 0x1b, 0xcc, 0x55, 0xa6, 0xff, 0x83, 0x45, 0xe6, 0x92, 0xc0, 0xf8, 0x6e,
    0x5b, 0x48, 0xe0, 0x1b, 0x99, 0x6c, 0xad, 0xc0, 0x01, 0x62, 0x2f, 0xb5, 0xe3, 0x63, 0xb4, 0x21], rfl⟩

/-- What the state database reads besides the account trie: contract code by
its hash, an account's committed storage under a storage root, and Keccak-256. -/
structure Database where
  ContractCode : Hash → List UInt8
  Storage : Address → Hash → Hash → Hash
  Keccak256Hash : List UInt8 → Hash

/-- `state.Account`, as the trie stores it. -/
structure Account where
  Nonce : UInt64
  Balance : Int
  Root : Hash
  CodeHash : Hash

/-- `stateObject`: an account being changed. -/
structure stateObject where
  address : Address
  data : Account
  /-- The code, once loaded or set; `none` is the `nil` of a code not loaded. -/
  code : Option (List UInt8)
  /-- Slots written by earlier transactions of the block, not yet in the trie. -/
  pendingStorage : Hash → Option Hash
  /-- Slots written by the running transaction. -/
  dirtyStorage : Hash → Option Hash
  suicided : Bool
  deleted : Bool

/-- `emptyCodeHash`, the hash of no code. -/
def Database.emptyCodeHash (db : Database) : Hash :=
  db.Keccak256Hash []

/-- `newObject`: an object with no storage written yet, a zero root replaced
by the empty root. A code hash, missing only from `Account{}`, is given here
by `Database.emptyAccount`. -/
def newObject (address : Address) (data : Account) : stateObject :=
  ⟨address, { data with Root := if data.Root = zeroHash then emptyRoot else data.Root }, none,
    fun _ => none, fun _ => none, false, false⟩

@[simp]
theorem address_newObject (address : Address) (data : Account) : (newObject address data).address = address :=
  rfl

/-- `Account{}` as `createObject` passes it to `newObject`. -/
def Database.emptyAccount (db : Database) : Account :=
  ⟨0, 0, zeroHash, db.emptyCodeHash⟩

namespace stateObject

variable (db : Database) (obj : stateObject)

/-- `empty`: no nonce, no balance and no code. -/
def empty : Bool :=
  obj.data.Nonce == 0 && obj.data.Balance == 0 && obj.data.CodeHash == db.emptyCodeHash

/-- `GetCommittedState`: a pending write, or the trie's slot. -/
def GetCommittedState (key : Hash) : Hash :=
  (obj.pendingStorage key).getD (db.Storage obj.address obj.data.Root key)

/-- `GetState`: the running transaction's write, or the committed slot. -/
def GetState (key : Hash) : Hash :=
  (obj.dirtyStorage key).getD (obj.GetCommittedState db key)

/-- `Code`: the code set or loaded, no code for the empty code hash, or the
code the database keeps under the hash. -/
def Code : List UInt8 :=
  match obj.code with
  | some code => code
  | none => if obj.data.CodeHash = db.emptyCodeHash then [] else db.ContractCode obj.data.CodeHash

/-- `setBalance`. -/
def setBalance (amount : Int) : stateObject :=
  { obj with data := { obj.data with Balance := amount } }

/-- `setNonce`. -/
def setNonce (nonce : UInt64) : stateObject :=
  { obj with data := { obj.data with Nonce := nonce } }

/-- `setCode`. -/
def setCode (codeHash : Hash) (code : List UInt8) : stateObject :=
  { obj with code := some code, data := { obj.data with CodeHash := codeHash } }

/-- `setState`. -/
def setState (key value : Hash) : stateObject :=
  { obj with dirtyStorage := Function.update obj.dirtyStorage key (some value) }

end stateObject

/-- A journal entry: what a change overwrote, so that it can be put back. -/
inductive journalEntry
  | createObjectChange (account : Address)
  | resetObjectChange (prev : stateObject)
  | suicideChange (account : Address) (prev : Bool) (prevbalance : Int)
  | balanceChange (account : Address) (prev : Int)
  | nonceChange (account : Address) (prev : UInt64)
  | storageChange (account : Address) (key prevalue : Hash)
  | codeChange (account : Address) (prevcode : List UInt8) (prevhash : Hash)
  | refundChange (prev : UInt64)
  | addLogChange (txhash : Hash)
  | addPreimageChange (hash : Hash)
  | touchChange (account : Address)

/-- `revision`: a snapshot's id and the journal's length when it was taken. -/
structure revision where
  id : Nat
  journalIndex : Nat
  deriving DecidableEq

/-- `StateDB` with logs of type `ℓ`. -/
structure StateDB (ℓ : Type) where
  trie : Address → Option Account
  stateObjects : Address → Option stateObject
  refund : UInt64
  thash : Hash
  /-- Each log with the index `AddLog` gave it. -/
  logs : Hash → List (ℓ × Nat)
  logSize : Nat
  preimages : Hash → Option (List UInt8)
  journal : List journalEntry
  validRevisions : List revision
  nextRevisionId : Nat

namespace StateDB

variable {ℓ : Type} (db : Database)

/-- `New` over the trie `trie`. -/
def New (trie : Address → Option Account) : StateDB ℓ :=
  ⟨trie, fun _ => none, 0, zeroHash, fun _ => [], 0, fun _ => none, [], [], 0⟩

/-- `journal.append`. -/
def append (s : StateDB ℓ) (entry : journalEntry) : StateDB ℓ :=
  { s with journal := s.journal ++ [entry] }

/-- `getDeletedStateObject`: the live object, or the trie's account. -/
def getDeletedStateObject (s : StateDB ℓ) (addr : Address) : Option stateObject :=
  match s.stateObjects addr with
  | some obj => some obj
  | none => (s.trie addr).map (newObject addr)

/-- `getStateObject`: as `getDeletedStateObject`, but not a deleted object. -/
def getStateObject (s : StateDB ℓ) (addr : Address) : Option stateObject :=
  (s.getDeletedStateObject addr).filter (!·.deleted)

/-- `setStateObject`. -/
def setStateObject (s : StateDB ℓ) (obj : stateObject) : StateDB ℓ :=
  { s with stateObjects := Function.update s.stateObjects obj.address (some obj) }

/-- `createObject`: a new empty object in place of any there was, deleted or
not; the journal records which of the two it replaced. Returns the new object,
the one replaced, and the state. -/
def createObject (s : StateDB ℓ) (addr : Address) : stateObject × Option stateObject × StateDB ℓ :=
  let prev := s.getDeletedStateObject addr
  let newobj := newObject addr db.emptyAccount
  let s := match prev with
    | none => s.append (.createObjectChange addr)
    | some prev => s.append (.resetObjectChange prev)
  (newobj, prev, s.setStateObject newobj)

/-- `GetOrNewStateObject`. -/
def GetOrNewStateObject (s : StateDB ℓ) (addr : Address) : stateObject × StateDB ℓ :=
  match s.getStateObject addr with
  | some obj => (obj, s)
  | none =>
    let (obj, _, s) := s.createObject db addr
    (obj, s)

/-- `stateObject.SetBalance`: journal the balance, then set it. -/
def setBalanceOf (s : StateDB ℓ) (obj : stateObject) (amount : Int) : StateDB ℓ :=
  (s.append (.balanceChange obj.address obj.data.Balance)).setStateObject (obj.setBalance amount)

/-- `CreateAccount`: the new object keeps the balance of the one it replaces. -/
def CreateAccount (s : StateDB ℓ) (addr : Address) : StateDB ℓ :=
  match s.createObject db addr with
  | (newObj, some prev, s) => s.setStateObject (newObj.setBalance prev.data.Balance)
  | (_, none, s) => s

/-- `AddBalance`: adding nothing touches an empty account. -/
def AddBalance (s : StateDB ℓ) (addr : Address) (amount : Int) : StateDB ℓ :=
  let (obj, s) := s.GetOrNewStateObject db addr
  if amount = 0 then
    if obj.empty db then s.append (.touchChange obj.address) else s
  else s.setBalanceOf obj (obj.data.Balance + amount)

/-- `SubBalance`. -/
def SubBalance (s : StateDB ℓ) (addr : Address) (amount : Int) : StateDB ℓ :=
  let (obj, s) := s.GetOrNewStateObject db addr
  if amount = 0 then s else s.setBalanceOf obj (obj.data.Balance - amount)

/-- `SetBalance`. -/
def SetBalance (s : StateDB ℓ) (addr : Address) (amount : Int) : StateDB ℓ :=
  let (obj, s) := s.GetOrNewStateObject db addr
  s.setBalanceOf obj amount

/-- `SetNonce`. -/
def SetNonce (s : StateDB ℓ) (addr : Address) (nonce : UInt64) : StateDB ℓ :=
  let (obj, s) := s.GetOrNewStateObject db addr
  (s.append (.nonceChange obj.address obj.data.Nonce)).setStateObject (obj.setNonce nonce)

/-- `SetCode`: the code and its Keccak-256 hash. -/
def SetCode (s : StateDB ℓ) (addr : Address) (code : List UInt8) : StateDB ℓ :=
  let (obj, s) := s.GetOrNewStateObject db addr
  (s.append (.codeChange obj.address (obj.Code db) obj.data.CodeHash)).setStateObject
    (obj.setCode (db.Keccak256Hash code) code)

/-- `SetState`: a write of the value the slot holds is no change. -/
def SetState (s : StateDB ℓ) (addr : Address) (key value : Hash) : StateDB ℓ :=
  let (obj, s) := s.GetOrNewStateObject db addr
  let prev := obj.GetState db key
  if prev = value then s
  else (s.append (.storageChange obj.address key prev)).setStateObject (obj.setState key value)

/-- `Suicide`: mark an existing account and clear its balance. -/
def Suicide (s : StateDB ℓ) (addr : Address) : Bool × StateDB ℓ :=
  match s.getStateObject addr with
  | none => (false, s)
  | some obj =>
    (true, (s.append (.suicideChange addr obj.suicided obj.data.Balance)).setStateObject
      { obj.setBalance 0 with suicided := true })

/-- `AddRefund`; the counter is a `uint64`. -/
def AddRefund (s : StateDB ℓ) (gas : UInt64) : StateDB ℓ :=
  { s.append (.refundChange s.refund) with refund := s.refund + gas }

/-- `SubRefund`: the journal entry comes before the check. -/
def SubRefund (s : StateDB ℓ) (gas : UInt64) : Go (StateDB ℓ) :=
  let s' := s.append (.refundChange s.refund)
  if s.refund < gas then .error (.explicit "Refund counter below zero")
  else .ok { s' with refund := s.refund - gas }

/-- `AddLog`: under the running transaction's hash, with the next index. -/
def AddLog (s : StateDB ℓ) (log : ℓ) : StateDB ℓ :=
  { s.append (.addLogChange s.thash) with
    logs := Function.update s.logs s.thash (s.logs s.thash ++ [(log, s.logSize)])
    logSize := s.logSize + 1 }

/-- `AddPreimage`: the first preimage of a hash is kept. -/
def AddPreimage (s : StateDB ℓ) (hash : Hash) (preimage : List UInt8) : StateDB ℓ :=
  match s.preimages hash with
  | some _ => s
  | none => { s.append (.addPreimageChange hash) with
      preimages := Function.update s.preimages hash (some preimage) }

/-- `s.getStateObject(account).set…(…)` in a journal entry's `revert`: the
account's object changed by `set`, or a nil dereference when it is gone. -/
def revertObject (s : StateDB ℓ) (account : Address) (set : stateObject → stateObject) :
    Go (StateDB ℓ) :=
  match s.getStateObject account with
  | some obj => .ok (s.setStateObject (set obj))
  | none => .error .nilDereference

/-- `journalEntry.revert`. The suicide entry checks that the object is still
there; the other entries of an account dereference it. Dropping the last log
of an empty list slices below zero. -/
def revertEntry : journalEntry → StateDB ℓ → Go (StateDB ℓ)
  | .createObjectChange account, s => .ok { s with stateObjects := Function.update s.stateObjects account none }
  | .resetObjectChange prev, s => .ok (s.setStateObject prev)
  | .suicideChange account prev prevbalance, s =>
    match s.getStateObject account with
    | some obj => .ok (s.setStateObject { obj.setBalance prevbalance with suicided := prev })
    | none => .ok s
  | .balanceChange account prev, s => s.revertObject account (·.setBalance prev)
  | .nonceChange account prev, s => s.revertObject account (·.setNonce prev)
  | .storageChange account key prevalue, s => s.revertObject account (·.setState key prevalue)
  | .codeChange account prevcode prevhash, s => s.revertObject account (·.setCode prevhash prevcode)
  | .refundChange prev, s => .ok { s with refund := prev }
  | .addLogChange txhash, s =>
    if s.logs txhash = [] then .error .sliceBoundsOutOfRange
    else .ok { s with logs := Function.update s.logs txhash (s.logs txhash).dropLast, logSize := s.logSize - 1 }
  | .addPreimageChange hash, s => .ok { s with preimages := Function.update s.preimages hash none }
  | .touchChange _, s => .ok s

/-- `journal.revert`: undo the entries from index `snapshot` on, newest
first, and cut the journal there. -/
def revertJournal (s : StateDB ℓ) (snapshot : Nat) : Go (StateDB ℓ) := do
  let s' ← UndoLog.undoAll revertEntry (s.journal.drop snapshot).reverse s
  return { s' with journal := s.journal.take snapshot }

/-- `Snapshot`: the next id, for the journal's length now. -/
def Snapshot (s : StateDB ℓ) : Nat × StateDB ℓ :=
  (s.nextRevisionId, { s with
    nextRevisionId := s.nextRevisionId + 1
    validRevisions := s.validRevisions ++ [⟨s.nextRevisionId, s.journal.length⟩] })

/-- `RevertToSnapshot`: `sort.Search` for the first revision whose id is not
below `revid`, which must be `revid`; revert the journal to its length and
forget it and every later revision. -/
def RevertToSnapshot (s : StateDB ℓ) (revid : Nat) : Go (StateDB ℓ) :=
  let idx := s.validRevisions.findIdx fun r => revid ≤ r.id
  match s.validRevisions[idx]? with
  | some r =>
    if r.id = revid then do
      let s' ← s.revertJournal r.journalIndex
      return { s' with validRevisions := s.validRevisions.take idx }
    else .error (.explicit "revision id cannot be reverted")
  | none => .error (.explicit "revision id cannot be reverted")

section Getters

variable (s : StateDB ℓ) (addr : Address)

/-- `GetBalance`. -/
def GetBalance : Int :=
  ((s.getStateObject addr).map fun obj => obj.data.Balance).getD 0

/-- `GetNonce`. -/
def GetNonce : UInt64 :=
  ((s.getStateObject addr).map fun obj => obj.data.Nonce).getD 0

/-- `GetCode`. -/
def GetCode : List UInt8 :=
  ((s.getStateObject addr).map fun obj => obj.Code db).getD []

/-- `GetCodeHash`. -/
def GetCodeHash : Hash :=
  ((s.getStateObject addr).map fun obj => obj.data.CodeHash).getD zeroHash

/-- `GetState`. -/
def GetState (key : Hash) : Hash :=
  ((s.getStateObject addr).map fun obj => obj.GetState db key).getD zeroHash

/-- `Exist`: also for a suicided account. -/
def Exist : Bool :=
  (s.getStateObject addr).isSome

/-- `Empty`: no account, or an empty one. -/
def Empty : Bool :=
  ((s.getStateObject addr).map fun obj => obj.empty db).getD true

/-- `HasSuicided`. -/
def HasSuicided : Bool :=
  ((s.getStateObject addr).map fun obj => obj.suicided).getD false

end Getters

/-- What the getters of a state database return, for every address, slot and
transaction hash; `Logs` is the logs of every transaction hash taken in map
order, `GetLogs` those of one. -/
structure Observation (ℓ : Type) where
  GetBalance : Address → Int
  GetNonce : Address → UInt64
  GetCode : Address → List UInt8
  GetCodeHash : Address → Hash
  GetState : Address → Hash → Hash
  Exist : Address → Bool
  Empty : Address → Bool
  HasSuicided : Address → Bool
  GetRefund : UInt64
  GetLogs : Hash → List (ℓ × Nat)
  Preimages : Hash → Option (List UInt8)

/-- The getters of `s`. -/
def observe (s : StateDB ℓ) : Observation ℓ :=
  ⟨s.GetBalance, s.GetNonce, s.GetCode db, s.GetCodeHash, s.GetState db, s.Exist,
    s.Empty db, s.HasSuicided, s.refund, s.logs, s.preimages⟩

end StateDB

/-- The calls a transaction makes on the state database. -/
inductive Op (ℓ : Type)
  | CreateAccount (addr : Address)
  | AddBalance (addr : Address) (amount : Int)
  | SubBalance (addr : Address) (amount : Int)
  | SetBalance (addr : Address) (amount : Int)
  | SetNonce (addr : Address) (nonce : UInt64)
  | SetCode (addr : Address) (code : List UInt8)
  | SetState (addr : Address) (key value : Hash)
  | Suicide (addr : Address)
  | AddRefund (gas : UInt64)
  | SubRefund (gas : UInt64)
  | AddLog (log : ℓ)
  | AddPreimage (hash : Hash) (preimage : List UInt8)
  | Snapshot
  | RevertToSnapshot (revid : Nat)

namespace StateDB

variable {ℓ : Type} (db : Database)

/-- One call on the state database. -/
def apply : Op ℓ → StateDB ℓ → Go (StateDB ℓ)
  | .CreateAccount addr, s => .ok (s.CreateAccount db addr)
  | .AddBalance addr amount, s => .ok (s.AddBalance db addr amount)
  | .SubBalance addr amount, s => .ok (s.SubBalance db addr amount)
  | .SetBalance addr amount, s => .ok (s.SetBalance db addr amount)
  | .SetNonce addr nonce, s => .ok (s.SetNonce db addr nonce)
  | .SetCode addr code, s => .ok (s.SetCode db addr code)
  | .SetState addr key value, s => .ok (s.SetState db addr key value)
  | .Suicide addr, s => .ok (s.Suicide addr).2
  | .AddRefund gas, s => .ok (s.AddRefund gas)
  | .SubRefund gas, s => s.SubRefund gas
  | .AddLog log, s => .ok (s.AddLog log)
  | .AddPreimage hash preimage, s => .ok (s.AddPreimage hash preimage)
  | .Snapshot, s => .ok s.Snapshot.2
  | .RevertToSnapshot revid, s => s.RevertToSnapshot revid

/-- A sequence of calls, stopping at the first panic. -/
def run : List (Op ℓ) → StateDB ℓ → Go (StateDB ℓ)
  | [], s => .ok s
  | op :: ops, s => s.apply db op >>= run ops

end StateDB

end Ebakus.Core.State
