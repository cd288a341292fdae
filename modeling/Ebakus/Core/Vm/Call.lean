/-
# Calls into the precompiles

`run` hands a call to a precompile when its code address is one of
`PrecompiledContractsEbakus`, and to the bytecode interpreter otherwise.
`RunPrecompiledContract` charges the precompile's `RequiredGas` together with
the growth of the ebakusdb snapshot's allocation. `StaticCall` runs a call with
the read-only flag set and, when the call fails, reverts the `StateDB` and the
ebakusdb snapshot to what they were.

The read-only flag reaches the interpreter only. `RunPrecompiledContract`
never sees it, so a static call of the system contract runs its commands as
any other call does, and a successful one keeps what they wrote.

The bytecode interpreter, the nine Ethereum precompiles, the DB contract and
ebakusdb's count of allocated objects are parameters here: a call of the
system contract reaches none of them but the last.
-/

import Ebakus.Core.Vm.CommandSpec

namespace Ebakus.Core.Vm

open Ebakus.Lang Ebakus.Common Ebakus.Data

/-- A precompiled contract: the gas it asks for and what it runs for a caller. -/
structure PrecompiledContract where
  RequiredGas : Slice UInt8 → Go UInt64
  Run : Evm → Address → Slice UInt8 → Result (List UInt8 × Evm)

/-- The system contract as a precompile. -/
def systemContract.precompile : PrecompiledContract :=
  ⟨systemContract.RequiredGas, systemContract.Run⟩

/-- What a call reaches besides the system contract. `interpreterRun` is
`interpreter.Run` for the code at an address, with the read-only flag; it
returns the output, the gas left and the state it leaves, or an error. -/
structure CallEnv where
  ethereumPrecompiles : Fin 9 → PrecompiledContract
  dbContract : PrecompiledContract
  interpreterRun : Evm → Address → Address → List UInt8 → UInt64 → Bool →
    Go (List UInt8 × UInt64 × Except VmError Evm)
  GetObjAllocated : EbakusState → UInt64

/-- `params.EbakusDBMemoryUsageGas`: gas per allocated ebakusdb byte. -/
def EbakusDBMemoryUsageGas : UInt64 := 650

/-- `params.CallCreateDepth`. -/
def CallCreateDepth : Nat := 1024

/-- `PrecompiledContractsEbakus`: the Ethereum precompiles at addresses 1 to 9,
then the system and the DB contract. -/
def PrecompiledContractsEbakus (env : CallEnv) (addr : Address) : Option PrecompiledContract :=
  if addr = PrecompliledSystemContract then some systemContract.precompile
  else if addr = PrecompliledDBContract then some env.dbContract
  else ((List.finRange 9).find? fun i => addr = BytesToAddress [(i.val + 1).toUInt8]).map
    env.ethereumPrecompiles

/-- The gas `RunPrecompiledContract` charges: the precompile's own and
`EbakusDBMemoryUsageGas` for each byte the snapshot grew by. The growth is
`int64(post - pre)`, taken as zero when negative. -/
def usedMemoryGas (preUsedMemory postUsedMemory minimumGas : UInt64) : UInt64 :=
  let usedMemory := postUsedMemory - preUsedMemory
  let usedMemory := if usedMemory.toInt64 < 0 then 0 else usedMemory
  minimumGas + usedMemory * EbakusDBMemoryUsageGas

/-- `RunPrecompiledContract`: the output, the gas left and the state the
precompile leaves, or its error. A `Run` that fails here has changed nothing,
so the snapshot did not grow and only `RequiredGas` is charged. -/
def RunPrecompiledContract (GetObjAllocated : EbakusState → UInt64) (evm : Evm)
    (p : PrecompiledContract) (caller : Address) (input : List UInt8) (gas : UInt64) :
    Go (List UInt8 × UInt64 × Except VmError Evm) := do
  let preUsedMemory := GetObjAllocated evm.ebakusState
  let minimumGas ← p.RequiredGas (Slice.ofList input)
  if gas < minimumGas then return ([], gas, .error .ErrOutOfGas)
  match p.Run evm caller (Slice.ofList input) with
  -- a panic inside a precompile is not recovered
  | .error (.panic cause) => throw cause
  | .error (.error err) => return ([], gas - minimumGas, .error err)
  | .ok (ret, evm') =>
      let charged := usedMemoryGas preUsedMemory (GetObjAllocated evm'.ebakusState) minimumGas
      -- `contract.UseGas(usedMemoryGas)`
      if gas < charged then return ([], gas, .error .ErrOutOfGas)
      else return (ret, gas - charged, .ok evm')

/-- `run`: a precompile at the code address, else the interpreter. Only the
interpreter is told whether the call is read-only. -/
def run (env : CallEnv) (evm : Evm) (caller codeAddr : Address) (input : List UInt8)
    (gas : UInt64) (readOnly : Bool) : Go (List UInt8 × UInt64 × Except VmError Evm) :=
  match PrecompiledContractsEbakus env codeAddr with
  | some p => RunPrecompiledContract env.GetObjAllocated evm p caller input gas
  | none => env.interpreterRun evm caller codeAddr input gas readOnly

/-- `EVM.StaticCall` at call depth `depth`: the output, the gas left, the
error if any, and the state after the call. -/
def StaticCall (env : CallEnv) (depth : Nat) (NoRecursion : Bool) (evm : Evm)
    (caller addr : Address) (input : List UInt8) (gas : UInt64) :
    Go (List UInt8 × UInt64 × Option VmError × Evm) := do
  if NoRecursion && 0 < depth then return ([], gas, none, evm)
  if CallCreateDepth < depth then return ([], gas, some .ErrDepth, evm)
  -- `evm.StateDB.AddBalance(addr, bigZero)` only touches the account
  let (ret, gasLeft, outcome) ← run env evm caller addr input gas true
  match outcome with
  | .ok evm' => return (ret, gasLeft, none, evm')
  | .error err =>
      -- `RevertToSnapshot` and `ResetTo`: a failed call leaves no trace
      return (ret, if err = .errExecutionReverted then gasLeft else 0, some err, evm)

section Frames

variable {env : CallEnv} {evm evm' : Evm} {caller addr : Address} {input ret : List UInt8}
  {gas gasLeft : UInt64}

theorem run_of_precompile {p : PrecompiledContract} (readOnly : Bool)
    (found : PrecompiledContractsEbakus env addr = some p) :
    run env evm caller addr input gas readOnly =
      RunPrecompiledContract env.GetObjAllocated evm p caller input gas := by
  simp only [run, found]

/-- A static call of a precompile that succeeds keeps what the precompile wrote. -/
theorem StaticCall_of_precompile {p : PrecompiledContract} {depth : Nat}
    (shallow : depth ≤ CallCreateDepth) (found : PrecompiledContractsEbakus env addr = some p)
    (ran : RunPrecompiledContract env.GetObjAllocated evm p caller input gas =
      .ok (ret, gasLeft, .ok evm')) :
    StaticCall env depth false evm caller addr input gas = .ok (ret, gasLeft, none, evm') := by
  unfold StaticCall
  rw [if_neg (by simp), if_neg (by unfold CallCreateDepth at shallow ⊢; omega),
    run_of_precompile true found, ran]
  rfl

/-- `RunPrecompiledContract` keeps the state a successful `Run` leaves when
the gas covers `RequiredGas` and the growth of the snapshot. -/
theorem RunPrecompiledContract_of_ok {p : PrecompiledContract} {GetObjAllocated : EbakusState → UInt64}
    {minimumGas : UInt64} (required : p.RequiredGas (Slice.ofList input) = .ok minimumGas)
    (covered : minimumGas ≤ gas)
    (ran : p.Run evm caller (Slice.ofList input) = .ok (ret, evm'))
    (enough : usedMemoryGas (GetObjAllocated evm.ebakusState) (GetObjAllocated evm'.ebakusState)
      minimumGas ≤ gas) :
    RunPrecompiledContract GetObjAllocated evm p caller input gas =
      .ok (ret, gas - usedMemoryGas (GetObjAllocated evm.ebakusState)
        (GetObjAllocated evm'.ebakusState) minimumGas, .ok evm') := by
  unfold RunPrecompiledContract
  simp only [required, ran, bind, Except.bind, pure, Except.pure]
  rw [if_neg (UInt64.not_lt.mpr covered), if_neg (UInt64.not_lt.mpr enough)]

end Frames

section StaticSystemCall

/-- The call data of `electEnable(true)` selects `electEnableCmd`. -/
theorem Run_electEnable_true (evm : Evm) (caller : Address) :
    systemContract.Run evm caller (Slice.ofList ([224, 161, 234, 150] ++ List.replicate 31 0 ++ [1])) =
      systemContract.electEnableCmd evm caller true :=
  rfl

theorem RequiredGas_electEnable_true :
    systemContract.RequiredGas (Slice.ofList ([224, 161, 234, 150] ++ List.replicate 31 0 ++ [1])) =
      .ok SystemContractElectEnableGas :=
  rfl

/-- A static call of `electEnable(true)` from an account with no witness row
succeeds whenever the gas covers it, and leaves the account an electable
witness. -/
theorem StaticCall_electEnable_writes (env : CallEnv) (depth : Nat) (evm : Evm) (caller : Address)
    (gas : UInt64) (shallow : depth ≤ CallCreateDepth)
    (fresh : evm.ebakusState.witnesses.get caller = none)
    (covered : SystemContractElectEnableGas ≤ gas)
    (enough : ∀ out evm', systemContract.electEnableCmd evm caller true = .ok (out, evm') →
      usedMemoryGas (env.GetObjAllocated evm.ebakusState) (env.GetObjAllocated evm'.ebakusState)
        SystemContractElectEnableGas ≤ gas) :
    ∃ ret gasLeft evm', StaticCall env depth false evm caller PrecompliledSystemContract
        ([224, 161, 234, 150] ++ List.replicate 31 0 ++ [1]) gas = .ok (ret, gasLeft, none, evm') ∧
      evm'.ebakusState.witnesses.get caller = some ⟨0, ElectEnabledFlag⟩ := by
  have enabled := systemContract.electEnableCmd_eq evm caller true
  have found : PrecompiledContractsEbakus env PrecompliledSystemContract =
      some systemContract.precompile := by
    simp [PrecompiledContractsEbakus]
  refine ⟨[], _, _, StaticCall_of_precompile shallow found
    (RunPrecompiledContract_of_ok RequiredGas_electEnable_true covered
      ((Run_electEnable_true evm caller).trans enabled) (enough _ _ enabled)), ?_⟩
  simp [Table.get_insertObj_self, fresh]

theorem StaticCall_electEnable_writes_on_empty_snapshot :
    ∃ env : CallEnv, ∃ ret gasLeft evm',
      StaticCall env 1 false ⟨0, 30, ⟨fun _ => 0⟩, EbakusState.empty⟩ (BytesToAddress [171])
        PrecompliledSystemContract ([224, 161, 234, 150] ++ List.replicate 31 0 ++ [1]) 1000 =
          .ok (ret, gasLeft, none, evm') ∧
        evm'.ebakusState.witnesses.get (BytesToAddress [171]) = some ⟨0, ElectEnabledFlag⟩ := by
  -- the allocation counts witness rows; nothing but the system contract is reached
  let env : CallEnv := ⟨fun _ => systemContract.precompile, systemContract.precompile,
    fun evm _ _ _ gas _ => .ok ([], gas, .ok evm), fun db => db.witnesses.keys.length.toUInt64⟩
  refine ⟨env, StaticCall_electEnable_writes env 1 _ _ 1000 (by decide) rfl (by decide) ?_⟩
  intro out evm' enabled
  rw [systemContract.electEnableCmd_eq] at enabled
  cases enabled
  decide

end StaticSystemCall

end Ebakus.Core.Vm
