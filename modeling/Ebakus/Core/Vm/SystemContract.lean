/-
# The system contract (`core/vm/contracts.go`)

Staking, voting and claiming, each as the Go code performs it against the
snapshot: selections by Id prefix, loops over the selected rows, upserts and
deletes, and balance transfers between the caller and the contract's own
address. Token amounts are `uint64` counts of `precisionFactor` wei, and their
arithmetic wraps as Go's does.

The loops of the source become structurally recursive functions over the
selected rows, with the loop's accumulators as arguments. `vote` and `unvote`
are the shared helpers that every command uses to keep witness stakes in step
with the delegations.
-/

import Ebakus.Core.Vm.EbakusState
import Ebakus.Core.Vm.ContractAbis
import Mathlib.Data.List.Sort

namespace Ebakus.Core.Vm

open Ebakus.Lang Ebakus.Common Ebakus.Data Ebakus.Accounts.Abi

/-- Go's `int(v)` of a `uint64` on a 64-bit platform. -/
def goInt (v : UInt64) : Int :=
  if v.toNat < 2 ^ 63 then v.toNat else (v.toNat : Int) - 2 ^ 64

/-- Replace an error value by `err`, as `if err != nil { return nil, err' }`
does; a panic goes through unchanged. -/
def withError {α : Type} (x : Result α) (err : VmError) : Result α :=
  match x with
  | .error (.error _) => fail err
  | other => other

/-- The raw system-stake value, read with `binary.BigEndian.Uint64`. -/
def systemStaked (db : EbakusState) : Go (Option UInt64) :=
  match db.keys.get SystemStakeDBKey with
  | none => .ok none
  | some bytes => (bigEndianUint64 bytes).map some

/-- `db.Insert(SystemStakeDBKey, PutUint64(value))`. -/
def setSystemStaked (db : EbakusState) (value : UInt64) : EbakusState :=
  { db with keys := db.keys.insertObj SystemStakeDBKey (putBigEndianUint64 value) }

/-- `GetStaked`: the `Staked` row of an account, if any. -/
def GetStaked (db : EbakusState) (owner : Address) : Option (Address × UInt64) :=
  firstLike db.staked Address.bytes owner.bytes

/-- `vote`: add `amount` to the stake of each listed witness and record the
delegation. An address without a `Witnesses` row stops the loop with an error. -/
def vote (db : EbakusState) (delegator : Address) : List Address → UInt64 → Result EbakusState
  | [], _ => .ok db
  | address :: addresses, amount =>
      match firstLike db.witnesses Address.bytes address.bytes with
      | none => fail .errVoteAddressIsNotWitness
      | some (id, witness) =>
          vote { db with
              witnesses := db.witnesses.insertObj id { witness with stake := witness.stake + amount }
              delegations := db.delegations.insertObj (AddressesToDelegationId delegator address) () }
            delegator addresses amount

/-- The loop of `unvote` over the caller's delegations: take `amount` off each
delegated witness and collect the witness addresses. -/
def unvoteLoop (amount : UInt64) :
    List (DelegationId × Unit) → EbakusState → List Address → Result (EbakusState × List Address)
  | [], db, delegationsAddresses => .ok (db, delegationsAddresses)
  | (delegation, _) :: rest, db, delegationsAddresses =>
      let witnessAddress := delegation.Content.2
      match firstLike db.witnesses Address.bytes witnessAddress.bytes with
      | none => fail .errSystemContractError
      | some (id, witness) =>
          -- the source's second check, `witness.Stake < 0`, cannot hold for a `uint64`
          if witness.stake < amount then fail .errSystemContractError
          else
            unvoteLoop amount rest
              { db with witnesses := db.witnesses.insertObj id { witness with stake := witness.stake - amount } }
              (delegationsAddresses ++ [witnessAddress])

/-- `unvote`: withdraw `amount` from every witness the account delegates to,
then delete all of its delegations; returns the witnesses it delegated to. -/
def unvote (db : EbakusState) (delegator : Address) (amount : UInt64) :
    Result (EbakusState × List Address) := do
  let delegations := selectLike db.delegations DelegationId.bytes delegator.bytes
  let (db, delegationsAddresses) ← unvoteLoop amount delegations db []
  -- `delegationsToBeDeleted` holds every delegation the loop visited
  .ok ({ db with delegations := db.delegations.deleteAll (delegations.map Prod.fst) },
    delegationsAddresses)

/-- `unique`: drop repeated addresses, keeping first occurrences. -/
def unique (addresses : List Address) : List Address :=
  go [] addresses
where
  go (used : List Address) : List Address → List Address
    | [] => []
    | entry :: rest => if entry ∈ used then go used rest else entry :: go (used ++ [entry]) rest

/-- The claimable loop of `stakeCmd`: consume entries, whole or in part, until
`amount` is covered. Returns the amount covered, the entries consumed whole and
the table with the partially consumed entry rewritten. -/
def consumeClaimables (amount : UInt64) :
    List (ClaimableId × Claimable) → UInt64 → List ClaimableId → Table ClaimableId Claimable →
      UInt64 × List ClaimableId × Table ClaimableId Claimable
  | [], claimableAmount, toBeDeleted, table => (claimableAmount, toBeDeleted, table)
  | (id, claimable) :: rest, claimableAmount, toBeDeleted, table =>
      let (claimableAmount', toBeDeleted', table') :=
        if claimable.amount ≤ amount - claimableAmount then
          (claimableAmount + claimable.amount, toBeDeleted ++ [id], table)
        else
          (claimableAmount + (amount - claimableAmount), toBeDeleted,
            table.insertObj id { claimable with amount := claimable.amount - (amount - claimableAmount) })
      if claimableAmount' = amount then (claimableAmount', toBeDeleted', table')
      else consumeClaimables amount rest claimableAmount' toBeDeleted' table'

/-- The claimable entries of an account, `ORDER BY Id DESC`. -/
def claimablesDescending (db : EbakusState) (owner : Address) : List (ClaimableId × Claimable) :=
  (selectLike db.claimable ClaimableId.bytes owner.bytes).insertionSort
    fun first second => second.1.bytes ≤ first.1.bytes

namespace systemContract

/-- The re-weighting part of `stakeCmd`: an account with a `Staked` row moves
its delegations from the old amount to the increased one, and an account
without one votes with `amount` for the witnesses it still delegates to.
Returns the `Staked` row to insert. -/
def revoteStaked (db : EbakusState) (owner : Address) (amount : UInt64) :
    Result (EbakusState × Address × UInt64) :=
  match GetStaked db owner with
  | some (id, oldAmount) => do
      let (db, delegatedAddresses) ← withError (unvote db owner oldAmount) .errSystemContractError
      let db ← withError (vote db owner delegatedAddresses (oldAmount + amount)) .errSystemContractError
      .ok (db, id, oldAmount + amount)
  | none => do
      let (db, delegatedAddresses) ← withError (unvote db owner 0) .errSystemContractError
      let db ← withError (vote db owner delegatedAddresses amount) .errSystemContractError
      .ok (db, owner, amount)

/-- `stakeCmd`: stake `amount`, paid first from the account's claimable entries
and for the rest from its balance, and re-weight its delegations. -/
def stakeCmd (evm : Evm) (owner : Address) (amount : UInt64) : Result (List UInt8 × Evm) := do
  if amount = 0 then fail .errSystemContractError else
  let db := evm.ebakusState
  let (claimableAmount, claimablesToBeDeleted, claimableTable) :=
    consumeClaimables amount (claimablesDescending db owner) 0 [] db.claimable
  let db := { db with claimable := claimableTable }
  let amountToBeTransfered := amount - claimableAmount
  -- `new(big.Int).Div(balanceWei, precisionFactor).Uint64()` keeps the low 64 bits
  let balance := UInt64.ofNat (evm.stateDB.balance owner / precisionFactor)
  if ¬amountToBeTransfered ≤ balance then fail .errStakeNotEnoughBalance else
  let db := { db with claimable := db.claimable.deleteAll claimablesToBeDeleted }
  let stored ← liftGo (systemStaked db)
  let db := setSystemStaked db (amount + stored.getD 0)
  let (db, stakedId, stakedAmount) ← revoteStaked db owner amount
  let db := { db with staked := db.staked.insertObj stakedId stakedAmount }
  let amountToBeTransferedWei := amountToBeTransfered.toNat * precisionFactor
  if ¬evm.stateDB.CanTransfer owner amountToBeTransferedWei then fail .ErrInsufficientBalance else
  .ok ([], { evm with
    stateDB := evm.stateDB.Transfer owner PrecompliledSystemContract amountToBeTransferedWei
    ebakusState := db })

/-- `getStakedCmd`: the staked amount as a 32-byte big-endian word. -/
def getStakedCmd (evm : Evm) (owner : Address) : Result (List UInt8 × Evm) :=
  let amount := match GetStaked evm.ebakusState owner with
    | some (_, stakedAmount) => stakedAmount
    | none => 0
  .ok (List.replicate 24 0 ++ putBigEndianUint64 amount, evm)

/-- The counting loop of `unstakeCmd`: refuse an entry for the same vesting
time and more than `maxClaimableEntries` entries. -/
def countClaimables (newClaimableEntryId : ClaimableId) :
    List (ClaimableId × Claimable) → Nat → Result Unit
  | [], _ => .ok ()
  | (id, _) :: rest, countClaimableEntries =>
      if newClaimableEntryId = id then fail .errSystemContractError
      else if maxClaimableEntries ≤ countClaimableEntries + 1 then fail .errUnstakeTooManyClaimable
      else countClaimables newClaimableEntryId rest (countClaimableEntries + 1)

/-- `unstakeCmd`: move `amount` from the account's stake into a claimable entry
that vests after `unstakeVestingPeriod`, and re-weight its delegations. -/
def unstakeCmd (evm : Evm) (owner : Address) (amount : UInt64) : Result (List UInt8 × Evm) := do
  let db := evm.ebakusState
  let timestamp := evm.time + unstakeVestingPeriod
  let newClaimableEntryId := GetClaimableId owner timestamp
  countClaimables newClaimableEntryId (selectLike db.claimable ClaimableId.bytes owner.bytes) 0
  -- the `Staked` row is selected with the same `Id LIKE owner` clause
  let some (stakedId, oldStake) := GetStaked db owner | fail .errSystemContractError
  if oldStake < amount then fail .errUnstakeNotEnoughStakedAmount else
  let newStake := if amount = oldStake then 0 else oldStake - amount
  let db := if amount = oldStake then { db with staked := db.staked.deleteObj stakedId }
    else { db with staked := db.staked.insertObj stakedId (oldStake - amount) }
  let db := { db with
    claimable := db.claimable.insertObj newClaimableEntryId ⟨amount, timestamp⟩ }
  let (db, delegatedAddresses) ← withError (unvote db owner oldStake) .errSystemContractError
  let db ← withError (vote db owner delegatedAddresses newStake) .errSystemContractError
  let some systemStakedBytesOut := db.keys.get SystemStakeDBKey | fail .errSystemContractError
  let systemStakedOut ← liftGo (bigEndianUint64 systemStakedBytesOut)
  if systemStakedOut < amount then fail .errSystemContractError else
  .ok ([], { evm with ebakusState := setSystemStaked db (systemStakedOut - amount) })

/-- The loop of `claimCmd`: add up the entries that have vested. -/
def collectClaimables (time : UInt64) :
    List (ClaimableId × Claimable) → UInt64 → List ClaimableId → UInt64 × List ClaimableId
  | [], claimableAmount, toBeDeleted => (claimableAmount, toBeDeleted)
  | (id, claimable) :: rest, claimableAmount, toBeDeleted =>
      if claimable.timestamp ≤ time then
        collectClaimables time rest (claimableAmount + claimable.amount) (toBeDeleted ++ [id])
      else collectClaimables time rest claimableAmount toBeDeleted

/-- `claimCmd`: pay out every vested claimable entry of the account. -/
def claimCmd (evm : Evm) (owner : Address) : Result (List UInt8 × Evm) :=
  let (claimableAmount, claimablesToBeDeleted) :=
    collectClaimables evm.time
      (selectLike evm.ebakusState.claimable ClaimableId.bytes owner.bytes) 0 []
  let evm := { evm with ebakusState := { evm.ebakusState with
    claimable := evm.ebakusState.claimable.deleteAll claimablesToBeDeleted } }
  if claimableAmount = 0 then .ok ([], evm)
  else
    let claimableAmountWei := claimableAmount.toNat * precisionFactor
    if ¬evm.stateDB.CanTransfer PrecompliledSystemContract claimableAmountWei then
      fail .ErrInsufficientBalance
    else
      .ok ([], { evm with
        stateDB := evm.stateDB.Transfer PrecompliledSystemContract owner claimableAmountWei })

/-- `voteCmd`: replace the account's delegations by the given witnesses. -/
def voteCmd (evm : Evm) (owner : Address) (addresses : List Address) : Result (List UInt8 × Evm) := do
  let addresses := unique addresses
  -- `len(addresses) > int(evm.chainConfig.DPOS.MaxWitnessesVotes)`
  if goInt evm.maxWitnessesVotes < addresses.length then fail .errVoteMaxWitnessesReached else
  let some (_, stakedAmount) := GetStaked evm.ebakusState owner | fail .errVoteNothingStaked
  let (db, _) ← unvote evm.ebakusState owner stakedAmount
  let db ← vote db owner addresses stakedAmount
  .ok ([], { evm with ebakusState := db })

/-- `unvoteCmd`: withdraw all of the account's delegations. -/
def unvoteCmd (evm : Evm) (owner : Address) : Result (List UInt8 × Evm) := do
  let some (_, stakedAmount) := GetStaked evm.ebakusState owner | fail .errVoteNothingStaked
  let (db, _) ← withError (unvote evm.ebakusState owner stakedAmount) .errSystemContractError
  .ok ([], { evm with ebakusState := db })

/-- `electEnableCmd`: set or clear the account's `ElectEnabledFlag`, creating its
`Witnesses` row with no stake if there is none. -/
def electEnableCmd (evm : Evm) (owner : Address) (enable : Bool) : Result (List UInt8 × Evm) :=
  let db := evm.ebakusState
  let (id, witness) := (firstLike db.witnesses Address.bytes owner.bytes).getD (owner, ⟨0, 0⟩)
  let witness := if enable then { witness with flags := witness.flags ||| ElectEnabledFlag }
    else { witness with flags := witness.flags &&& ~~~ElectEnabledFlag }
  .ok ([], { evm with ebakusState := { db with witnesses := db.witnesses.insertObj id witness } })

end systemContract

/-- `storeAbiAtAddress`: record an ABI for an address that has none. -/
def storeAbiAtAddress (db : EbakusState) (contractAddress : Address) (abi : List UInt8) :
    Result EbakusState :=
  let abiId := GetContractAbiId contractAddress "abi".toUTF8.toList []
  match firstLike db.contractAbi id abiId with
  | some _ => fail .errContractAbiExists
  | none => .ok { db with contractAbi := db.contractAbi.insertObj abiId abi }

/-- `GetAbiAtAddress`: the two precompiles answer with their own ABI texts. -/
def GetAbiAtAddress (db : EbakusState) (contractAddress : Address) : Result (List UInt8) :=
  if contractAddress = PrecompliledSystemContract then .ok SystemContractABI.toUTF8.toList
  else if contractAddress = PrecompliledDBContract then .ok DBABI.toUTF8.toList
  else
    let idPrefix := GetContractAbiId contractAddress "abi".toUTF8.toList []
    match firstLike db.contractAbi id idPrefix with
    | none => fail .errContractAbiNotFound
    | some (abiId, abi) =>
        if BytesToAddress (abiId.take AddressLength) ≠ contractAddress then fail .errSystemContractError
        else .ok abi

/-- The gas prices of the `params` package that the system contract charges. -/
def SystemContractBaseGas : UInt64 := 500
def SystemContractStakeGas : UInt64 := 800
def SystemContractGetStakedGas : UInt64 := 100
def SystemContractUnstakeGas : UInt64 := 500
def SystemContractClaimGas : UInt64 := 300
def SystemContractVoteGas : UInt64 := 100
def SystemContractUnvoteGas : UInt64 := 500
def SystemContractElectEnableGas : UInt64 := 100
def SystemContractStoreAbiGas : UInt64 := 500
def SystemContractGetAbiGas : UInt64 := 100

/-- The addresses of a decoded `address[]` argument. -/
def addressesOf (values : List AbiValue) : Option (List Address) :=
  values.mapM fun
    | .address address => some address
    | _ => none

namespace systemContract

/-- `systemContract.RequiredGas`. The selector split `input[:4], input[4:]`
comes before `MethodById` checks the length of the selector. -/
def RequiredGas (input : Slice UInt8) : Go UInt64 := do
  if input.len = 0 then return SystemContractBaseGas
  -- `abi.JSON(strings.NewReader(SystemContractABI))` parses a constant and cannot fail
  let cmdData ← input.sliceTo 4
  let inputData ← input.sliceFrom 4
  match MethodById SystemContractMethods cmdData.toList with
  | .error _ => return SystemContractBaseGas
  | .ok method =>
      return match method.name with
        | "stake" => SystemContractStakeGas
        | "getStaked" => SystemContractGetStakedGas
        | "unstake" => SystemContractUnstakeGas
        | "claim" => SystemContractClaimGas
        | "vote" =>
            match UnpackWithArguments method inputData.toList with
            | .ok [.slice addresses] => SystemContractVoteGas * UInt64.ofNat addresses.length
            | _ => SystemContractBaseGas
        | "unvote" => SystemContractUnvoteGas
        | "electEnable" => SystemContractElectEnableGas
        | "storeAbiForAddress" => SystemContractStoreAbiGas
        | "getAbiForAddress" => SystemContractGetAbiGas
        | _ => SystemContractBaseGas

/-- `systemContract.Run`: split off the selector, decode the arguments of the
selected method and run its command for the calling account. -/
def Run (evm : Evm) (caller : Address) (input : Slice UInt8) : Result (List UInt8 × Evm) := do
  if input.len = 0 then fail .errSystemContractError else
  -- `abi.JSON(strings.NewReader(SystemContractABI))` parses a constant and cannot fail
  let cmdData ← liftGo (input.sliceTo 4)
  let inputData ← liftGo (input.sliceFrom 4)
  match MethodById SystemContractMethods cmdData.toList with
  | .error _ => fail .errSystemContractAbiError
  | .ok method =>
      match method.name with
      | "stake" =>
          match UnpackWithArguments method inputData.toList with
          | .ok [.uint64 amount] => do
              let (_, evm) ← claimCmd evm caller
              stakeCmd evm caller amount
          | _ => fail .errStakeMalformed
      | "getStaked" => getStakedCmd evm caller
      | "unstake" =>
          match UnpackWithArguments method inputData.toList with
          | .ok [.uint64 amount] => unstakeCmd evm caller amount
          | _ => fail .errUnstakeMalformed
      | "claim" => claimCmd evm caller
      | "vote" =>
          match UnpackWithArguments method inputData.toList with
          | .ok [.slice values] =>
              match addressesOf values with
              | some addresses => voteCmd evm caller addresses
              | none => fail .errVoteMalformed
          | _ => fail .errVoteMalformed
      | "unvote" => unvoteCmd evm caller
      | "electEnable" =>
          match UnpackWithArguments method inputData.toList with
          | .ok [.bool enable] => electEnableCmd evm caller enable
          | _ => fail .errElectEnableMalformed
      | "storeAbiForAddress" =>
          match UnpackWithArguments method inputData.toList with
          | .ok [.address address, .string abi] => do
              let db ← storeAbiAtAddress evm.ebakusState address abi
              .ok ([], { evm with ebakusState := db })
          | _ => fail .errContractAbiMalformed
      | "getAbiForAddress" =>
          match UnpackWithArguments method inputData.toList with
          | .ok [.address contractAddress] => do
              let contractAbi ← withError (GetAbiAtAddress evm.ebakusState contractAddress)
                .errSystemContractError
              -- `PackWithArguments` puts the selector in front, and `res[4:]` drops it
              .ok (packDynamic contractAbi, evm)
          | _ => fail .errContractAbiMalformed
      | _ => fail .errSystemContractError

end systemContract

/-- The empty genesis snapshot. -/
def EbakusState.empty : EbakusState :=
  ⟨∅, ∅, ∅, ∅, ∅, ∅⟩

/-- `SystemContractSetupDB` on the genesis snapshot: the boot producer becomes
the first, electable witness, and the ABIs of both precompiles are recorded. -/
def SystemContractSetupDB (address : Address) : Result EbakusState := do
  let db := { EbakusState.empty with
    witnesses := (∅ : Table Address Witness).insertObj address ⟨0, ElectEnabledFlag⟩ }
  let db ← storeAbiAtAddress db PrecompliledSystemContract SystemContractABI.toUTF8.toList
  storeAbiAtAddress db PrecompliledDBContract DBABI.toUTF8.toList

end Ebakus.Core.Vm
