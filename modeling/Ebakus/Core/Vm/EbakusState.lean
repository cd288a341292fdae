/-
# The state the Ebakus precompiles read and write

The system contract keeps its accounting in ebakusdb tables namespaced to its
own address: `Witnesses` (Id → Stake, Flags), `Staked` (Id → Amount),
`Delegations` (a set of from/witness pairs), `Claimable` ((from, timestamp) →
Amount, Timestamp) and `ContractAbi`, plus the raw key `SystemStakeDBKey`.
The ebakusdb package itself is not part of the repository. Its snapshot is
modelled by the behaviour the contract relies on: `InsertObj` upserts by Id,
`DeleteObj` removes by Id, and a selection with `Id LIKE p` yields the rows
whose Id bytes start with `p`.

Next to the snapshot, the contracts read and move balances of the `StateDB`,
and the block time and chain configuration of the EVM context. Errors are the
package's error values; a run-time panic is kept apart from them, since only
the former is rolled back by the calling frame.
-/

import Ebakus.Data.Table
import Ebakus.Accounts.Abi

namespace Ebakus.Core.Vm

open Ebakus.Lang Ebakus.Common Ebakus.Data

/-- `types.PrecompliledSystemContract`. -/
def PrecompliledSystemContract : Address := BytesToAddress [1, 1]

/-- `types.PrecompliledDBContract`. -/
def PrecompliledDBContract : Address := BytesToAddress [1, 2]

/-- `precisionFactor`: wei per staked unit, `10^(18 - valueDecimalPoints)`. -/
def precisionFactor : Nat := 10 ^ (18 - 4)

/-- `maxClaimableEntries`. -/
def maxClaimableEntries : Nat := 5

/-- `unstakeVestingPeriod`: three days in seconds. -/
def unstakeVestingPeriod : UInt64 := 60 * 60 * 24 * 3

/-- `ElectEnabledFlag`. -/
def ElectEnabledFlag : UInt64 := 1

/-- `types.SystemStakeDBKey` as the bytes of the raw key. -/
def SystemStakeDBKey : List UInt8 := "ebk:global:systemStake".toUTF8.toList

/-- A `Witness` row without its Id. -/
structure Witness where
  stake : UInt64
  flags : UInt64
  deriving DecidableEq, Repr

/-- A `Claimable` row without its Id. -/
structure Claimable where
  amount : UInt64
  timestamp : UInt64
  deriving DecidableEq, Repr

/-- `ClaimableId`: the owner's address followed by the little-endian timestamp. -/
structure ClaimableId where
  owner : Address
  timestamp : UInt64
  deriving DecidableEq

/-- `DelegationId`: the delegator's address followed by the witness's. -/
structure DelegationId where
  delegator : Address
  witness : Address
  deriving DecidableEq

/-- `GetClaimableId`. -/
def GetClaimableId (owner : Address) (timestamp : UInt64) : ClaimableId :=
  ⟨owner, timestamp⟩

/-- `AddressesToDelegationId`. -/
def AddressesToDelegationId (delegator witness : Address) : DelegationId :=
  ⟨delegator, witness⟩

/-- The 28 Id bytes of a claimable entry. -/
def ClaimableId.bytes (id : ClaimableId) : List UInt8 :=
  id.owner.bytes ++ putLittleEndianUint64 id.timestamp

/-- The 40 Id bytes of a delegation. -/
def DelegationId.bytes (id : DelegationId) : List UInt8 :=
  id.delegator.bytes ++ id.witness.bytes

/-- `DelegationId.Content`: split the Id back into the two addresses. -/
def DelegationId.Content (id : DelegationId) : Address × Address :=
  (BytesToAddress (id.bytes.take AddressLength), BytesToAddress (id.bytes.drop AddressLength))

/-- `GetContractAbiId`: address, ABI type and name, concatenated. -/
def GetContractAbiId (address : Address) (abiType name : List UInt8) : List UInt8 :=
  address.bytes ++ (if abiType.isEmpty then "abi".toUTF8.toList else abiType) ++ name

/-- The ebakusdb snapshot the precompiles see. -/
structure EbakusState where
  witnesses : Table Address Witness
  staked : Table Address UInt64
  claimable : Table ClaimableId Claimable
  delegations : Table DelegationId Unit
  contractAbi : Table (List UInt8) (List UInt8)
  keys : Table (List UInt8) (List UInt8)

/-- The rows of a table whose Id bytes start with `p`: `Select(table, Id LIKE p)`. -/
def selectLike {κ ρ : Type} [DecidableEq κ] (t : Table κ ρ) (bytesOf : κ → List UInt8)
    (p : List UInt8) : List (κ × ρ) :=
  t.select fun k => p.isPrefixOf (bytesOf k)

/-- The first row of `Select(table, Id LIKE p)`, as `iter.Next` returns it. -/
def firstLike {κ ρ : Type} [DecidableEq κ] (t : Table κ ρ) (bytesOf : κ → List UInt8)
    (p : List UInt8) : Option (κ × ρ) :=
  (selectLike t bytesOf p).head?

/-- The part of the `StateDB` the precompiles use: balances in wei. -/
structure StateDB where
  balance : Address → Nat

namespace StateDB

/-- `core.CanTransfer`. -/
def CanTransfer (db : StateDB) (addr : Address) (amount : Nat) : Bool :=
  amount ≤ db.balance addr

/-- `core.Transfer`: `SubBalance` on the sender, then `AddBalance` on the recipient. -/
def Transfer (db : StateDB) (sender recipient : Address) (amount : Nat) : StateDB :=
  let debited := Function.update db.balance sender (db.balance sender - amount)
  ⟨Function.update debited recipient (debited recipient + amount)⟩

end StateDB

/-- The EVM fields a precompile reads: the block time (`evm.Time`, set from the
header's `uint64` time), the voting limit of the chain configuration, and the
two databases. -/
structure Evm where
  time : UInt64
  maxWitnessesVotes : UInt64
  stateDB : StateDB
  ebakusState : EbakusState

/-- The error values of the `vm` package that the precompiles return. -/
inductive VmError
  | errSystemContractError
  | errSystemContractAbiError
  | errSystemContractQueryError
  | errStakeMalformed
  | errStakeNotEnoughBalance
  | errUnstakeMalformed
  | errUnstakeTooManyClaimable
  | errUnstakeNotEnoughStakedAmount
  | errVoteMalformed
  | errVoteAddressIsNotWitness
  | errVoteNothingStaked
  | errVoteMaxWitnessesReached
  | errElectEnableMalformed
  | errContractAbiMalformed
  | errContractAbiNotFound
  | errContractAbiExists
  | errDBContractError
  | errNoEntryFound
  | errEmptyTableNameError
  | errTableAbiMalformed
  | errCreateTableMalformed
  | errCreateTableExists
  | errInsertObjMalformed
  | errDeleteObjMalformed
  | errSelectMalformed
  | errIteratorMalformed
  | ErrOutOfGas
  | ErrDepth
  | ErrInsufficientBalance
  | errExecutionReverted
  deriving DecidableEq, Repr

/-- The text of each error value. -/
def VmError.message : VmError → String
  | .errSystemContractError => "system contract error"
  | .errSystemContractAbiError => "system contract ABI error"
  | .errSystemContractQueryError => "system contract query parsing error"
  | .errStakeMalformed => "staking transaction malformed"
  | .errStakeNotEnoughBalance => "not enough balance for staking"
  | .errUnstakeMalformed => "unstaking transaction malformed"
  | .errUnstakeTooManyClaimable => "unstaking failure because of too many claimable entries"
  | .errUnstakeNotEnoughStakedAmount => "not enough staked tokens for amount requested to unstake"
  | .errVoteMalformed => "voting transaction malformed"
  | .errVoteAddressIsNotWitness => "a voted address is not valid"
  | .errVoteNothingStaked => "nothing staked"
  | .errVoteMaxWitnessesReached => "not allowed to vote more than 20 witnesses"
  | .errElectEnableMalformed => "elect enable transaction malformed"
  | .errContractAbiMalformed => "contract abi transaction malformed"
  | .errContractAbiNotFound => "contract abi not found"
  | .errContractAbiExists => "contract abi exists"
  | .errDBContractError => "db contract error"
  | .errNoEntryFound => "no entry found in db"
  | .errEmptyTableNameError => "table name is empty or invalid"
  | .errTableAbiMalformed => "abi is empty or invalid"
  | .errCreateTableMalformed => "create table transaction malformed"
  | .errCreateTableExists => "create table failed as table exists"
  | .errInsertObjMalformed => "insert object transaction malformed"
  | .errDeleteObjMalformed => "delete object transaction malformed"
  | .errSelectMalformed => "db select transaction malformed"
  | .errIteratorMalformed => "next iterator transaction malformed"
  | .ErrOutOfGas => "out of gas"
  | .ErrDepth => "max call depth exceeded"
  | .ErrInsufficientBalance => "insufficient balance for transfer"
  | .errExecutionReverted => "evm: execution reverted"

/-- How a precompile call can end without a result. -/
inductive Fault
  | panic (cause : Panic)
  | error (err : VmError)
  deriving DecidableEq, Repr

/-- A computation of the `vm` package. -/
abbrev Result (α : Type) := Except Fault α

/-- Return one of the package's error values. -/
def fail {α : Type} (err : VmError) : Result α :=
  .error (.error err)

/-- Run Go code that may panic. -/
def liftGo {α : Type} (x : Go α) : Result α :=
  x.mapError Fault.panic

end Ebakus.Core.Vm
