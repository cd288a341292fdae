/-
# The DB contract (`core/vm/contracts.go`)

`dbContract` gives contracts tables of their own in ebakusdb: it creates a
table, inserts and deletes rows, reads one row, and walks a selection
through an iterator. The selector split and the argument decoding are those
of the system contract. The tables live in ebakusdb, a git submodule that is
not in the tree, so what each command does to them is a parameter
(`DBBackend`); the contract's own code around those calls is modelled: the
checks on the table name, the errors for malformed arguments, the output
encodings and the iterator handles.

A selection's iterator is kept in the EVM's map `ebakusStateIterators` under
a handle that `addEbakusStateIterator` draws from `math/rand`'s process-wide
generator. The generator is the sequence of values it yields (`randSeq`)
together with how far the process has read into it (`randPos`). The draw is
retried while the handle is taken; the model gives the loop `fuel` draws and
returns `none` while it is still drawing.
-/

import Ebakus.Core.Vm.CommandSpec

namespace Ebakus.Core.Vm

open Ebakus.Lang Ebakus.Common Ebakus.Data Ebakus.Accounts.Abi

/-- `ebakusStateIterator`: the table of a selection and its ebakusdb iterator. -/
structure ebakusStateIterator (ι : Type) where
  TableName : List UInt8
  Iter : ι

/-- What the DB contract reads and writes of an EVM: the snapshot, the EVM's
iterator map, and the position of the process-wide generator. -/
structure DbEvm (ι : Type) where
  ebakusState : EbakusState
  ebakusStateIterators : Table UInt64 (ebakusStateIterator ι)
  randPos : Nat

/-- The ebakusdb and table-ABI side of each command, called with the
arguments the contract passes (the contract's address and the table name
stand for `ebkdb.GetDBTableName` of them). `ι` is `*ebakusdb.ResultIterator`. -/
structure DBBackend (ι : Type) where
  /-- `createTable` past its checks of the name and the ABI text. -/
  createTable : EbakusState → Address → (tableName indexes abi : List UInt8) →
    Except VmError (List UInt8 × EbakusState)
  /-- `insertObj` past its check of the name. -/
  insertObj : EbakusState → Address → (tableName data : List UInt8) →
    Except VmError (List UInt8 × EbakusState)
  /-- `deleteObj` past its check of the name. -/
  deleteObj : EbakusState → Address → (tableName id : List UInt8) →
    Except VmError (List UInt8 × EbakusState)
  /-- `EbakusDBGet` past its check of the name, then the packing of the row. -/
  get : EbakusState → Address → (tableName whereClause orderClause : List UInt8) →
    Except VmError (List UInt8)
  /-- `db.WhereParser`, `db.OrderParser` and `db.Select` in `EbakusDBSelect`:
  the iterator, or `none` when one of them fails. -/
  Select : EbakusState → Address → (tableName whereClause orderClause : List UInt8) → Option ι
  /-- `EbakusDBNext` and the packing of the row: the row's bytes (`none` past
  the last row) or the error, and the iterator after the step. -/
  Next : EbakusState → Address → (tableName : List UInt8) → ι →
    Except VmError (Option (List UInt8)) × ι

/-- `params.DBContractBaseGas` and the gas of each command: all the same. -/
def DBContractBaseGas : UInt64 := 500
def DBContractCreateTableGas : UInt64 := 500
def DBContractInsertObjGas : UInt64 := 500
def DBContractDeleteObjGas : UInt64 := 500
def DBContractGetGas : UInt64 := 500
def DBContractSelectGas : UInt64 := 500
def DBContractNextGas : UInt64 := 500

namespace dbContract

variable {ι : Type}

/-- `dbContract.RequiredGas`. As in the system contract, the split
`input[:4], input[4:]` comes before `MethodById`; the second half is
discarded but still evaluated. -/
def RequiredGas (input : Slice UInt8) : Go UInt64 := do
  if input.len = 0 then return DBContractBaseGas
  let cmdData ← input.sliceTo 4
  let _ ← input.sliceFrom 4
  match MethodById DBMethods cmdData.toList with
  | .error _ => return DBContractBaseGas
  | .ok method =>
      return match method.name with
        | "createTable" => DBContractCreateTableGas
        | "insertObj" => DBContractInsertObjGas
        | "deleteObj" => DBContractDeleteObjGas
        | "get" => DBContractGetGas
        | "select" => DBContractSelectGas
        | "next" => DBContractNextGas
        | _ => DBContractBaseGas

/-- `prependByteSize`: a 32-byte word holding the length, as a `uint32` in its
last four bytes, then the data. -/
def prependByteSize (data : List UInt8) : List UInt8 :=
  List.replicate 28 0 ++ (putBigEndianUint64 (UInt64.ofNat (data.length % 2 ^ 32))).drop 4 ++ data

/-- `EbakusDBSelect`. -/
def EbakusDBSelect (backend : DBBackend ι) (db : EbakusState) (contractAddress : Address)
    (tableName whereClause orderClause : List UInt8) : Except VmError ι :=
  if tableName.isEmpty then .error .errEmptyTableNameError
  else match backend.Select db contractAddress tableName whereClause orderClause with
    | some iter => .ok iter
    | none => .error .errDBContractError

/-- `EVM.addEbakusStateIterator`: draw handles until one is unused, and keep the
iterator under it. `none`: still drawing after `fuel` draws. -/
def addEbakusStateIterator (randSeq : Nat → UInt64) (evm : DbEvm ι) (tableName : List UInt8)
    (iter : ι) : Nat → Option (UInt64 × DbEvm ι)
  | 0 => none
  | fuel + 1 =>
      let handle := randSeq evm.randPos
      let evm := { evm with randPos := evm.randPos + 1 }
      if evm.ebakusStateIterators.get handle = none then
        some (handle, { evm with
          ebakusStateIterators := evm.ebakusStateIterators.insertObj handle ⟨tableName, iter⟩ })
      else addEbakusStateIterator randSeq evm tableName iter fuel

/-- A command's outcome: its output or error, with the EVM after it. The
snapshot of a failed command is rolled back by the caller; the iterator map
and the generator are not. -/
abbrev Outcome (ι : Type) := Except VmError (List UInt8) × DbEvm ι

/-- `dbContract.selectIter`: the handle, big-endian and right-padded to 32 bytes. -/
def selectIter (backend : DBBackend ι) (randSeq : Nat → UInt64) (fuel : Nat) (evm : DbEvm ι)
    (contractAddress : Address) (tableName whereClause orderClause : List UInt8) :
    Option (Outcome ι) :=
  match EbakusDBSelect backend evm.ebakusState contractAddress tableName whereClause orderClause with
  | .error err => some (.error err, evm)
  | .ok iter =>
      (addEbakusStateIterator randSeq evm tableName iter fuel).map fun (iterPointer, evm) =>
        (.ok (RightPadBytes (putBigEndianUint64 iterPointer) 32), evm)

/-- `dbContract.next`. An unknown handle finds no iterator, and reading its
`TableName` dereferences nil. -/
def next (backend : DBBackend ι) (evm : DbEvm ι) (contractAddress : Address)
    (input : List UInt8) : Go (Outcome ι) := do
  let handle ← bigEndianUint64 input
  let some tableIter := evm.ebakusStateIterators.get handle | throw .nilDereference
  let (found, iter) := backend.Next evm.ebakusState contractAddress tableIter.TableName tableIter.Iter
  -- the iterator is a pointer: its step is kept whatever the outcome
  let evm := { evm with
    ebakusStateIterators := evm.ebakusStateIterators.insertObj handle ⟨tableIter.TableName, iter⟩ }
  return match found with
    | .error err => (.error err, evm)
    | .ok none => (.ok (prependByteSize []), evm)
    | .ok (some data) => (.ok (prependByteSize data), evm)

/-- A command on the snapshot alone. -/
def onSnapshot (evm : DbEvm ι) (result : Except VmError (List UInt8 × EbakusState)) : Outcome ι :=
  match result with
  | .error err => (.error err, evm)
  | .ok (out, db) => (.ok out, { evm with ebakusState := db })

/-- `dbContract.Run`: split off the selector, decode the arguments of the
selected method and run its command for the calling contract. `none`: the
handle draw of a `select` has not ended within `fuel` draws. -/
def Run (backend : DBBackend ι) (randSeq : Nat → UInt64) (fuel : Nat) (evm : DbEvm ι)
    (caller : Address) (input : Slice UInt8) : Option (Go (Outcome ι)) :=
  if input.len = 0 then some (.ok (.error .errDBContractError, evm)) else
  match input.sliceTo 4, input.sliceFrom 4 with
  | .error p, _ => some (.error p)
  | .ok _, .error p => some (.error p)
  | .ok cmdData, .ok inputData =>
      match MethodById DBMethods cmdData.toList with
      | .error _ => some (.ok (.error .errDBContractError, evm))
      | .ok method =>
          let unpacked := UnpackWithArguments method inputData.toList
          match method.name, unpacked with
          | "createTable", .ok [.string tableName, .string indexes, .string abi] =>
              some (.ok (onSnapshot evm <|
                if tableName.isEmpty then .error .errEmptyTableNameError
                else if abi.isEmpty then .error .errTableAbiMalformed
                else backend.createTable evm.ebakusState caller tableName indexes abi))
          | "createTable", _ => some (.ok (.error .errCreateTableMalformed, evm))
          | "insertObj", .ok [.string tableName, .bytes data] =>
              some (.ok (onSnapshot evm <|
                if tableName.isEmpty then .error .errEmptyTableNameError
                else backend.insertObj evm.ebakusState caller tableName data))
          | "insertObj", _ => some (.ok (.error .errInsertObjMalformed, evm))
          | "deleteObj", .ok [.string tableName, .bytes id] =>
              some (.ok (onSnapshot evm <|
                if tableName.isEmpty then .error .errEmptyTableNameError
                else backend.deleteObj evm.ebakusState caller tableName id))
          | "deleteObj", _ => some (.ok (.error .errDeleteObjMalformed, evm))
          | "get", .ok [.string tableName, .string whereClause, .string orderClause] =>
              some (.ok (if tableName.isEmpty then (.error .errEmptyTableNameError, evm)
                else (backend.get evm.ebakusState caller tableName whereClause orderClause, evm)))
          | "get", _ => some (.ok (.error .errSelectMalformed, evm))
          | "select", .ok [.string tableName, .string whereClause, .string orderClause] =>
              (selectIter backend randSeq fuel evm caller tableName whereClause orderClause).map .ok
          | "select", _ => some (.ok (.error .errSelectMalformed, evm))
          | "next", .ok [.fixedBytes iterData] => some (next backend evm caller iterData)
          | "next", _ => some (.ok (.error .errIteratorMalformed, evm))
          -- a method of the ABI that the switch does not name returns nothing
          | _, _ => some (.ok (.ok [], evm))

section Handles

variable (randSeq : Nat → UInt64) {evm evm' : DbEvm ι} {tableName : List UInt8} {iter : ι}

theorem addEbakusStateIterator_fresh {fuel : Nat}
    (unused : evm.ebakusStateIterators.get (randSeq evm.randPos) = none) :
    addEbakusStateIterator randSeq evm tableName iter (fuel + 1) =
      some (randSeq evm.randPos, { evm with
        randPos := evm.randPos + 1
        ebakusStateIterators :=
          evm.ebakusStateIterators.insertObj (randSeq evm.randPos) ⟨tableName, iter⟩ }) := by
  simp only [addEbakusStateIterator, unused, if_true]

end Handles

/-- `next` with a handle that no `select` returned dereferences nil. -/
theorem next_of_unknown (backend : DBBackend ι) {evm : DbEvm ι} {contractAddress : Address}
    {input : List UInt8} {handle : UInt64} (read : bigEndianUint64 input = .ok handle)
    (unknown : evm.ebakusStateIterators.get handle = none) :
    next backend evm contractAddress input = .error .nilDereference := by
  simp only [next, read, unknown, bind, Except.bind]
  rfl

theorem RequiredGas_of_short {input : Slice UInt8} (nonempty : 0 < input.len)
    (short : input.len < 4) :
    RequiredGas input = .error .sliceBoundsOutOfRange := by
  unfold RequiredGas
  rw [if_neg (by omega)]
  cases cut : input.sliceTo 4 with
  | error p =>
      rw [Slice.sliceTo_eq_error cut]
      rfl
  | ok cmdData => simp only [bind, Except.bind, Slice.sliceFrom_of_lt short]

section Calls

set_option maxRecDepth 20000 in
/-- The call data of `select("t", "", "")` runs `selectIter` on those strings. -/
theorem Run_select_t (backend : DBBackend ι) (randSeq : Nat → UInt64) (fuel : Nat) (evm : DbEvm ι)
    (caller : Address) :
    Run backend randSeq fuel evm caller (Slice.ofList ([6, 32, 19, 147] ++ packNum 96 ++
      packNum 160 ++ packNum 192 ++ packNum 1 ++ [116] ++ List.replicate 31 0 ++ packNum 0 ++
        packNum 0)) =
      (selectIter backend randSeq fuel evm caller [116] [] []).map .ok :=
  rfl

/-- The call data of `next` with the all-zero handle runs `next` on it. -/
theorem Run_next_zero (backend : DBBackend ι) (randSeq : Nat → UInt64) (fuel : Nat) (evm : DbEvm ι)
    (caller : Address) :
    Run backend randSeq fuel evm caller (Slice.ofList ([2, 211, 175, 91] ++ List.replicate 32 0)) =
      some (next backend evm caller (List.replicate 32 0)) :=
  rfl

/-- A `select` whose table answers returns, on an EVM with no iterators yet,
the generator's next draw as its handle. -/
theorem selectIter_first (backend : DBBackend ι) (randSeq : Nat → UInt64) (fuel : Nat)
    {db : EbakusState} {contractAddress : Address} {tableName whereClause orderClause : List UInt8}
    {iter : ι} (pos : Nat) (named : tableName ≠ [])
    (selected : backend.Select db contractAddress tableName whereClause orderClause = some iter) :
    selectIter backend randSeq (fuel + 1) ⟨db, ∅, pos⟩ contractAddress tableName whereClause
        orderClause =
      some (.ok (RightPadBytes (putBigEndianUint64 (randSeq pos)) 32),
        ⟨db, (∅ : Table UInt64 (ebakusStateIterator ι)).insertObj (randSeq pos) ⟨tableName, iter⟩,
          pos + 1⟩) := by
  have found : EbakusDBSelect backend db contractAddress tableName whereClause orderClause =
      .ok iter := by
    simp [EbakusDBSelect, named, selected]
  simp only [selectIter, found]
  rw [addEbakusStateIterator_fresh randSeq (Table.get_empty _)]
  rfl

/-- Handles that differ give outputs that differ. -/
theorem handle_output_inj {a b : UInt64}
    (same : RightPadBytes (putBigEndianUint64 a) 32 = RightPadBytes (putBigEndianUint64 b) 32) :
    a = b := by
  apply putBigEndianUint64_inj
  have front := congrArg (List.take 8) same
  rwa [← length_putBigEndianUint64 a, take_RightPadBytes, length_putBigEndianUint64,
    ← length_putBigEndianUint64 b, take_RightPadBytes] at front

/-- Two nodes that differ only in how far their generators have run answer the
same `select` on the same snapshot with different outputs. -/
theorem select_output_depends_on_rand (backend : DBBackend ι) (randSeq : Nat → UInt64)
    (db : EbakusState) (caller : Address) (iter : ι) (pos₁ pos₂ fuel : Nat)
    (selected : backend.Select db caller [116] [] [] = some iter)
    (differ : randSeq pos₁ ≠ randSeq pos₂) :
    ∃ out₁ out₂ evm₁ evm₂,
      Run backend randSeq (fuel + 1) ⟨db, ∅, pos₁⟩ caller (Slice.ofList ([6, 32, 19, 147] ++
        packNum 96 ++ packNum 160 ++ packNum 192 ++ packNum 1 ++ [116] ++ List.replicate 31 0 ++
          packNum 0 ++ packNum 0)) = some (.ok (.ok out₁, evm₁)) ∧
      Run backend randSeq (fuel + 1) ⟨db, ∅, pos₂⟩ caller (Slice.ofList ([6, 32, 19, 147] ++
        packNum 96 ++ packNum 160 ++ packNum 192 ++ packNum 1 ++ [116] ++ List.replicate 31 0 ++
          packNum 0 ++ packNum 0)) = some (.ok (.ok out₂, evm₂)) ∧
      out₁ ≠ out₂ := by
  have run₁ := (Run_select_t backend randSeq (fuel + 1) ⟨db, ∅, pos₁⟩ caller).trans
    (congrArg (Option.map Except.ok) (selectIter_first backend randSeq fuel pos₁ (List.cons_ne_nil _ _) selected))
  have run₂ := (Run_select_t backend randSeq (fuel + 1) ⟨db, ∅, pos₂⟩ caller).trans
    (congrArg (Option.map Except.ok) (selectIter_first backend randSeq fuel pos₂ (List.cons_ne_nil _ _) selected))
  exact ⟨_, _, _, _, run₁, run₂, fun same => differ (handle_output_inj same)⟩

theorem select_output_depends_on_rand_at_first_draws :
    ∃ out₁ out₂ evm₁ evm₂,
      let backend : DBBackend Unit := ⟨fun db _ _ _ _ => .ok ([], db), fun db _ _ _ => .ok ([], db),
        fun db _ _ _ => .ok ([], db), fun _ _ _ _ _ => .ok [], fun _ _ _ _ _ => some (),
        fun _ _ _ iter => (.ok none, iter)⟩
      Run backend (fun n => n.toUInt64) 1 ⟨EbakusState.empty, ∅, 0⟩ (BytesToAddress [171])
        (Slice.ofList ([6, 32, 19, 147] ++ packNum 96 ++ packNum 160 ++ packNum 192 ++ packNum 1 ++
          [116] ++ List.replicate 31 0 ++ packNum 0 ++ packNum 0)) = some (.ok (.ok out₁, evm₁)) ∧
      Run backend (fun n => n.toUInt64) 1 ⟨EbakusState.empty, ∅, 1⟩ (BytesToAddress [171])
        (Slice.ofList ([6, 32, 19, 147] ++ packNum 96 ++ packNum 160 ++ packNum 192 ++ packNum 1 ++
          [116] ++ List.replicate 31 0 ++ packNum 0 ++ packNum 0)) = some (.ok (.ok out₂, evm₂)) ∧
      out₁ ≠ out₂ :=
  select_output_depends_on_rand _ _ _ _ () 0 1 0 rfl (by decide)

/-- The precompiles panic on call data they could refuse: one byte of it in
either contract's gas function or the system contract's `Run`, and a `next`
for a handle no `select` of this EVM returned. -/
theorem precompiles_panic_on_short_input_or_unknown_handle :
    systemContract.RequiredGas (Slice.ofList [0]) = .error .sliceBoundsOutOfRange ∧
      (∀ evm caller, systemContract.Run evm caller (Slice.ofList [0]) =
        .error (.panic .sliceBoundsOutOfRange)) ∧
      RequiredGas (Slice.ofList [0]) = .error .sliceBoundsOutOfRange ∧
      ∀ (backend : DBBackend ι) randSeq fuel db pos caller,
        Run backend randSeq fuel ⟨db, ∅, pos⟩ caller
          (Slice.ofList ([2, 211, 175, 91] ++ List.replicate 32 0)) = some (.error .nilDereference) := by
  refine ⟨systemContract.RequiredGas_of_short (by decide) (by decide),
    fun _ _ => systemContract.Run_of_short (by decide) (by decide),
    RequiredGas_of_short (by decide) (by decide), fun backend randSeq fuel db pos caller => ?_⟩
  rw [Run_next_zero, next_of_unknown backend rfl (Table.get_empty _)]

end Calls

end dbContract

end Ebakus.Core.Vm
