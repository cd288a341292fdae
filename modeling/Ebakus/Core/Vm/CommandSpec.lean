/-
# What the system contract's commands do

For every command of `systemContract.Run`, one statement that lists what a
successful run of it did: which helpers it called on which intermediate
snapshot, which checks passed, and how the EVM's balances and snapshot were
rebuilt at the end. The accounting proofs read these statements and never
unfold a command.

`Run` itself is described by `Command`: a successful call ran exactly one
command on its decoded arguments, and a `stake` call first claims what has
vested.
-/

import Ebakus.Core.Vm.SystemSpec
import Mathlib.Algebra.BigOperators.Group.Finset.Piecewise

namespace Ebakus.Core.Vm

open Ebakus.Lang Ebakus.Common Ebakus.Data Ebakus.Accounts.Abi

section Plumbing

theorem withError_eq_ok {α : Type} {x : Result α} {err : VmError} {a : α}
    (returned : withError x err = .ok a) : x = .ok a := by
  unfold withError at returned
  split at returned
  · cases returned
  · exact returned

theorem liftGo_eq_ok {α : Type} {x : Go α} {a : α} (returned : liftGo x = .ok a) : x = .ok a := by
  cases x with
  | error cause => cases returned
  | ok value =>
      simp only [liftGo, Except.mapError, Except.ok.injEq] at returned
      rw [returned]

@[simp]
theorem systemStaked_setSystemStaked (db : EbakusState) (value : UInt64) :
    systemStaked (setSystemStaked db value) = .ok (some value) := by
  simp [systemStaked, setSystemStaked, bigEndianUint64_putBigEndianUint64, Except.map]

end Plumbing

section Balances

namespace StateDB

variable {db : StateDB} {sender recipient : Address} {amount : Nat}

theorem Transfer_balance_recipient (distinct : sender ≠ recipient) :
    (db.Transfer sender recipient amount).balance recipient = db.balance recipient + amount := by
  simp [Transfer, Function.update_of_ne (Ne.symm distinct)]

theorem Transfer_balance_sender (distinct : sender ≠ recipient) :
    (db.Transfer sender recipient amount).balance sender = db.balance sender - amount := by
  simp [Transfer, Function.update_of_ne distinct]

theorem Transfer_balance_other {a : Address} (notSender : a ≠ sender) (notRecipient : a ≠ recipient) :
    (db.Transfer sender recipient amount).balance a = db.balance a := by
  simp [Transfer, Function.update_of_ne notSender, Function.update_of_ne notRecipient]

/-- Overwriting one value of a function moves its sum by the difference. -/
theorem sum_update_add (f : Address → Nat) (a : Address) (value : Nat) :
    (∑ b, Function.update f a value b) + f a = (∑ b, f b) + value := by
  classical
  rw [Finset.sum_update_of_mem (Finset.mem_univ a), Finset.sdiff_singleton_eq_erase,
    ← Finset.add_sum_erase Finset.univ f (Finset.mem_univ a)]
  omega

/-- A transfer the sender can pay keeps the sum of all balances. -/
theorem sum_balance_Transfer (covered : amount ≤ db.balance sender) :
    ∑ a, (db.Transfer sender recipient amount).balance a = ∑ a, db.balance a := by
  let debited := Function.update db.balance sender (db.balance sender - amount)
  have debit : (∑ a, debited a) + db.balance sender = (∑ a, db.balance a) + (db.balance sender - amount) :=
    sum_update_add db.balance sender (db.balance sender - amount)
  have credit : (∑ a, Function.update debited recipient (debited recipient + amount) a) +
      debited recipient = (∑ a, debited a) + (debited recipient + amount) :=
    sum_update_add debited recipient (debited recipient + amount)
  change (∑ a, Function.update debited recipient (debited recipient + amount) a) = _
  omega

end StateDB

end Balances

namespace systemContract

/-- A successful `revoteStaked` withdrew the account's delegations at its old
stake and voted again with the old stake plus `amount`, which it returns as
the account's `Staked` row. -/
theorem revoteStaked_effects {db db' : EbakusState} {owner stakedId : Address}
    {amount stakedAmount : UInt64}
    (revoted : revoteStaked db owner amount = .ok (db', stakedId, stakedAmount)) :
    stakedId = owner ∧ stakedAmount = (db.staked.get owner).getD 0 + amount ∧
      ∃ db₁ addresses, unvote db owner ((db.staked.get owner).getD 0) = .ok (db₁, addresses) ∧
        vote db₁ owner addresses ((db.staked.get owner).getD 0 + amount) = .ok db' := by
  unfold revoteStaked at revoted
  rw [GetStaked_eq] at revoted
  cases stored : db.staked.get owner with
  | some oldAmount =>
      simp only [stored, Option.map_some] at revoted
      obtain ⟨⟨db₁, addresses⟩, unvoted, revoted⟩ := bind_eq_ok revoted
      obtain ⟨db₂, voted, finished⟩ := bind_eq_ok revoted
      cases finished
      exact ⟨rfl, by simp, db₁, addresses, by simpa using withError_eq_ok unvoted,
        by simpa using withError_eq_ok voted⟩
  | none =>
      simp only [stored, Option.map_none] at revoted
      obtain ⟨⟨db₁, addresses⟩, unvoted, revoted⟩ := bind_eq_ok revoted
      obtain ⟨db₂, voted, finished⟩ := bind_eq_ok revoted
      cases finished
      exact ⟨rfl, by simp, db₁, addresses, by simpa using withError_eq_ok unvoted,
        by simpa using withError_eq_ok voted⟩

/-- A successful `stakeCmd` consumed claimable entries to cover part of
`amount`, read the system stake, re-weighted the account's delegations, and
moved the rest of `amount` from the account's balance to the contract. -/
theorem stakeCmd_effects {evm evm' : Evm} {owner : Address} {amount : UInt64}
    {out : List UInt8} (staked : stakeCmd evm owner amount = .ok (out, evm')) :
    ∃ covered marked table' stored db' stakedId stakedAmount,
      consumeClaimables amount (claimablesDescending evm.ebakusState owner) 0 []
          evm.ebakusState.claimable = (covered, marked, table') ∧
      systemStaked evm.ebakusState = .ok stored ∧
      revoteStaked (setSystemStaked { evm.ebakusState with claimable := table'.deleteAll marked }
          (amount + stored.getD 0)) owner amount = .ok (db', stakedId, stakedAmount) ∧
      (amount - covered).toNat * precisionFactor ≤ evm.stateDB.balance owner ∧
      evm' = { evm with
        stateDB := evm.stateDB.Transfer owner PrecompliledSystemContract
          ((amount - covered).toNat * precisionFactor)
        ebakusState := { db' with staked := db'.staked.insertObj stakedId stakedAmount } } := by
  unfold stakeCmd at staked
  split at staked
  · cases staked
  rcases consumed : consumeClaimables amount (claimablesDescending evm.ebakusState owner) 0 []
    evm.ebakusState.claimable with ⟨covered, marked, table'⟩
  dsimp only at staked
  rw [consumed] at staked
  dsimp only at staked
  split at staked
  · cases staked
  obtain ⟨stored, read, staked⟩ := bind_eq_ok staked
  obtain ⟨⟨db', stakedId, stakedAmount⟩, revoted, staked⟩ := bind_eq_ok staked
  dsimp only at staked
  split at staked
  · cases staked
  rename_i canTransfer
  simp only [Except.ok.injEq, Prod.mk.injEq] at staked
  obtain ⟨-, rfl⟩ := staked
  refine ⟨covered, marked, table', stored, db', stakedId, stakedAmount, rfl, liftGo_eq_ok read,
    revoted, ?_, rfl⟩
  simpa [StateDB.CanTransfer] using canTransfer

/-- A successful `unstakeCmd` found no claimable entry for the same vesting
time and fewer than `maxClaimableEntries` entries, lowered the account's
`Staked` row by `amount` (deleting it at zero), added a claimable entry for
`amount`, re-weighted the account's delegations and lowered the system stake. -/
theorem unstakeCmd_effects {evm evm' : Evm} {owner : Address} {amount : UInt64}
    {out : List UInt8} (unstaked : unstakeCmd evm owner amount = .ok (out, evm')) :
    ∃ oldStake db₁ addresses db₂ bytes systemStakedOut,
      countClaimables (GetClaimableId owner (evm.time + unstakeVestingPeriod))
        (selectLike evm.ebakusState.claimable ClaimableId.bytes owner.bytes) 0 = .ok () ∧
      evm.ebakusState.staked.get owner = some oldStake ∧ amount ≤ oldStake ∧
      unvote { evm.ebakusState with
          staked := if amount = oldStake then evm.ebakusState.staked.deleteObj owner
            else evm.ebakusState.staked.insertObj owner (oldStake - amount)
          claimable := evm.ebakusState.claimable.insertObj
            (GetClaimableId owner (evm.time + unstakeVestingPeriod))
            ⟨amount, evm.time + unstakeVestingPeriod⟩ }
        owner oldStake = .ok (db₁, addresses) ∧
      vote db₁ owner addresses (if amount = oldStake then 0 else oldStake - amount) = .ok db₂ ∧
      db₂.keys.get SystemStakeDBKey = some bytes ∧
      bigEndianUint64 bytes = .ok systemStakedOut ∧ amount ≤ systemStakedOut ∧
      evm' = { evm with ebakusState := setSystemStaked db₂ (systemStakedOut - amount) } := by
  unfold unstakeCmd at unstaked
  obtain ⟨⟨⟩, counted, unstaked⟩ := bind_eq_ok unstaked
  dsimp only at unstaked
  rw [GetStaked_eq] at unstaked
  cases stored : evm.ebakusState.staked.get owner with
  | none => simp [stored, fail] at unstaked
  | some oldStake =>
      simp only [stored, Option.map_some] at unstaked
      split at unstaked
      · cases unstaked
      rename_i enough
      -- the two ways of lowering the `Staked` row differ only in the table they write
      have lowered : (if amount = oldStake then { evm.ebakusState with staked := evm.ebakusState.staked.deleteObj owner }
            else { evm.ebakusState with staked := evm.ebakusState.staked.insertObj owner (oldStake - amount) }) =
          { evm.ebakusState with
            staked := if amount = oldStake then evm.ebakusState.staked.deleteObj owner
              else evm.ebakusState.staked.insertObj owner (oldStake - amount) } := by
        split <;> rfl
      rw [lowered] at unstaked
      obtain ⟨⟨db₁, addresses⟩, unvoted, unstaked⟩ := bind_eq_ok unstaked
      obtain ⟨db₂, voted, unstaked⟩ := bind_eq_ok unstaked
      cases read : db₂.keys.get SystemStakeDBKey with
      | none => simp [read, fail] at unstaked
      | some bytes =>
          simp only [read] at unstaked
          obtain ⟨systemStakedOut, decoded, unstaked⟩ := bind_eq_ok unstaked
          split at unstaked
          · cases unstaked
          rename_i covers
          simp only [Except.ok.injEq, Prod.mk.injEq] at unstaked
          obtain ⟨-, rfl⟩ := unstaked
          exact ⟨oldStake, db₁, addresses, db₂, bytes, systemStakedOut, counted, rfl,
            UInt64.not_lt.mp enough, withError_eq_ok unvoted, withError_eq_ok voted, read,
            liftGo_eq_ok decoded, UInt64.not_lt.mp covers, rfl⟩

/-- What `claimCmd` pays out: the vested amount `collectClaimables` adds up. -/
def claimedAmount (evm : Evm) (owner : Address) : UInt64 :=
  (collectClaimables evm.time (selectLike evm.ebakusState.claimable ClaimableId.bytes owner.bytes) 0 []).1

/-- The Ids of the entries `claimCmd` deletes. -/
def claimedIds (evm : Evm) (owner : Address) : List ClaimableId :=
  (collectClaimables evm.time (selectLike evm.ebakusState.claimable ClaimableId.bytes owner.bytes) 0 []).2

/-- The amount of an account's claimable entries that have vested by `time`. -/
def vestedOf (db : EbakusState) (owner : Address) (time : UInt64) : Nat :=
  db.claimable.sum fun id c => if id.owner = owner ∧ c.timestamp ≤ time then c.amount.toNat else 0

/-- `claimCmd` pays the vested amount, modulo `2^64`. -/
theorem claimedAmount_toNat (evm : Evm) (owner : Address) :
    (claimedAmount evm owner).toNat = vestedOf evm.ebakusState owner evm.time % 2 ^ 64 := by
  rw [claimedAmount, collectClaimables_fst, UInt64.toNat_zero, Nat.zero_add, selectLike,
    Table.sum_select]
  congr 1
  apply Table.sum_congr
  intro id c _
  by_cases mine : id.owner = owner <;> simp [mine]

/-- The entries `claimCmd` deletes are the account's entries that have vested. -/
theorem mem_claimedIds {evm : Evm} {owner : Address} {id : ClaimableId} {c : Claimable}
    (stored : evm.ebakusState.claimable.get id = some c) :
    id ∈ claimedIds evm owner ↔ id.owner = owner ∧ c.timestamp ≤ evm.time := by
  rw [claimedIds, collectClaimables_snd, List.nil_append, List.mem_map]
  constructor
  · rintro ⟨⟨key, row⟩, member, rfl⟩
    obtain ⟨selected, vested⟩ := List.mem_filter.mp member
    obtain ⟨rowStored, mine⟩ := mem_selectLike.mp selected
    rw [stored, Option.some.injEq] at rowStored
    subst rowStored
    simpa using And.intro mine vested
  · rintro ⟨mine, vested⟩
    refine ⟨(id, c), List.mem_filter.mpr ⟨mem_selectLike.mpr ⟨stored, by simpa using mine⟩, by simpa using vested⟩, rfl⟩

/-- Deleting what `claimCmd` deletes removes exactly the vested entries' share
of any column. -/
theorem sum_deleteAll_claimedIds (evm : Evm) (owner : Address) (f : ClaimableId → Claimable → Nat) :
    (evm.ebakusState.claimable.deleteAll (claimedIds evm owner)).sum f +
        evm.ebakusState.claimable.sum (fun id c =>
          if id.owner = owner ∧ c.timestamp ≤ evm.time then f id c else 0) =
      evm.ebakusState.claimable.sum f := by
  rw [Table.sum_deleteAll, Table.sum_split_rows evm.ebakusState.claimable
    (fun id c => id.owner = owner ∧ c.timestamp ≤ evm.time) f, Nat.add_comm]
  congr 1
  apply Table.sum_congr
  intro id c stored
  simp only [mem_claimedIds stored]

/-- A successful `claimCmd` deleted the vested entries and, if they add up to
anything, moved that many tokens' worth of wei from the contract to the
account, which the contract's balance covered. -/
theorem claimCmd_effects {evm evm' : Evm} {owner : Address} {out : List UInt8}
    (claimed : claimCmd evm owner = .ok (out, evm')) :
    (claimedAmount evm owner).toNat * precisionFactor ≤ evm.stateDB.balance PrecompliledSystemContract ∧
      evm' = { evm with
        stateDB := if claimedAmount evm owner = 0 then evm.stateDB
          else evm.stateDB.Transfer PrecompliledSystemContract owner
            ((claimedAmount evm owner).toNat * precisionFactor)
        ebakusState := { evm.ebakusState with
          claimable := evm.ebakusState.claimable.deleteAll (claimedIds evm owner) } } := by
  unfold claimCmd at claimed
  dsimp only at claimed
  split at claimed
  · rename_i nothing
    simp only [Except.ok.injEq, Prod.mk.injEq] at claimed
    obtain ⟨-, rfl⟩ := claimed
    refine ⟨?_, ?_⟩
    · simp [claimedAmount, nothing]
    · simp [claimedAmount, claimedIds, nothing]
  · rename_i something
    split at claimed
    · cases claimed
    rename_i canTransfer
    simp only [Except.ok.injEq, Prod.mk.injEq] at claimed
    obtain ⟨-, rfl⟩ := claimed
    refine ⟨by simpa [StateDB.CanTransfer, claimedAmount] using canTransfer, ?_⟩
    simp [claimedAmount, claimedIds, something]

/-- `claimCmd` succeeds whenever the contract can pay the vested amount. -/
theorem claimCmd_eq {evm : Evm} {owner : Address}
    (canPay : (claimedAmount evm owner).toNat * precisionFactor ≤
      evm.stateDB.balance PrecompliledSystemContract) :
    claimCmd evm owner = .ok ([], { evm with
      stateDB := if claimedAmount evm owner = 0 then evm.stateDB
        else evm.stateDB.Transfer PrecompliledSystemContract owner
          ((claimedAmount evm owner).toNat * precisionFactor)
      ebakusState := { evm.ebakusState with
        claimable := evm.ebakusState.claimable.deleteAll (claimedIds evm owner) } }) := by
  unfold claimCmd
  dsimp only
  split
  · rename_i nothing
    simp [claimedAmount, claimedIds, nothing]
  · rename_i something
    rw [if_neg (by simpa [StateDB.CanTransfer, claimedAmount] using canPay)]
    simp [claimedAmount, claimedIds, something]

/-- A successful `voteCmd` withdrew the account's delegations at its stake and
voted with its stake for the listed witnesses, each once. -/
theorem voteCmd_effects {evm evm' : Evm} {owner : Address} {addresses : List Address}
    {out : List UInt8} (voted : voteCmd evm owner addresses = .ok (out, evm')) :
    ∃ stakedAmount db₁ withdrawn db₂,
      evm.ebakusState.staked.get owner = some stakedAmount ∧
      unvote evm.ebakusState owner stakedAmount = .ok (db₁, withdrawn) ∧
      vote db₁ owner (unique addresses) stakedAmount = .ok db₂ ∧
      evm' = { evm with ebakusState := db₂ } := by
  unfold voteCmd at voted
  dsimp only at voted
  split at voted
  · cases voted
  rw [GetStaked_eq] at voted
  cases stored : evm.ebakusState.staked.get owner with
  | none => simp [stored, fail] at voted
  | some stakedAmount =>
      simp only [stored, Option.map_some] at voted
      obtain ⟨⟨db₁, withdrawn⟩, unvoted, voted⟩ := bind_eq_ok voted
      obtain ⟨db₂, revoted, finished⟩ := bind_eq_ok voted
      simp only [Except.ok.injEq, Prod.mk.injEq] at finished
      obtain ⟨-, rfl⟩ := finished
      exact ⟨stakedAmount, db₁, withdrawn, db₂, rfl, unvoted, revoted, rfl⟩

/-- A successful `unvoteCmd` withdrew the account's delegations at its stake. -/
theorem unvoteCmd_effects {evm evm' : Evm} {owner : Address} {out : List UInt8}
    (unvoted : unvoteCmd evm owner = .ok (out, evm')) :
    ∃ stakedAmount db₁ withdrawn,
      evm.ebakusState.staked.get owner = some stakedAmount ∧
      unvote evm.ebakusState owner stakedAmount = .ok (db₁, withdrawn) ∧
      evm' = { evm with ebakusState := db₁ } := by
  unfold unvoteCmd at unvoted
  rw [GetStaked_eq] at unvoted
  cases stored : evm.ebakusState.staked.get owner with
  | none => simp [stored, fail] at unvoted
  | some stakedAmount =>
      simp only [stored, Option.map_some] at unvoted
      obtain ⟨⟨db₁, withdrawn⟩, withdrew, finished⟩ := bind_eq_ok unvoted
      simp only [Except.ok.injEq, Prod.mk.injEq] at finished
      obtain ⟨-, rfl⟩ := finished
      exact ⟨stakedAmount, db₁, withdrawn, rfl, withError_eq_ok withdrew, rfl⟩

/-- `electEnableCmd` rewrites only the flags of the account's `Witnesses` row,
creating the row with no stake if there was none. -/
theorem electEnableCmd_eq (evm : Evm) (owner : Address) (enable : Bool) :
    electEnableCmd evm owner enable = .ok ([], { evm with ebakusState := { evm.ebakusState with
      witnesses := evm.ebakusState.witnesses.insertObj owner
        ⟨((evm.ebakusState.witnesses.get owner).getD ⟨0, 0⟩).stake,
          if enable then ((evm.ebakusState.witnesses.get owner).getD ⟨0, 0⟩).flags ||| ElectEnabledFlag
          else ((evm.ebakusState.witnesses.get owner).getD ⟨0, 0⟩).flags &&& ~~~ElectEnabledFlag⟩ } }) := by
  simp only [electEnableCmd, firstLike_Address]
  cases stored : evm.ebakusState.witnesses.get owner <;> cases enable <;> simp

end systemContract

/-- The commands `systemContract.Run` dispatches to, with their decoded arguments. -/
inductive Command
  | stake (amount : UInt64)
  | getStaked
  | unstake (amount : UInt64)
  | claim
  | vote (addresses : List Address)
  | unvote
  | electEnable (enable : Bool)
  | storeAbiForAddress (address : Address) (abi : List UInt8)
  | getAbiForAddress (address : Address)

/-- What each command does for the calling account, as the arms of `Run`'s
switch run it. -/
def Command.exec (evm : Evm) (caller : Address) : Command → Result (List UInt8 × Evm)
  | .stake amount => do
      let (_, evm) ← systemContract.claimCmd evm caller
      systemContract.stakeCmd evm caller amount
  | .getStaked => systemContract.getStakedCmd evm caller
  | .unstake amount => systemContract.unstakeCmd evm caller amount
  | .claim => systemContract.claimCmd evm caller
  | .vote addresses => systemContract.voteCmd evm caller addresses
  | .unvote => systemContract.unvoteCmd evm caller
  | .electEnable enable => systemContract.electEnableCmd evm caller enable
  | .storeAbiForAddress address abi => do
      let db ← storeAbiAtAddress evm.ebakusState address abi
      .ok ([], { evm with ebakusState := db })
  | .getAbiForAddress address => do
      let contractAbi ← withError (GetAbiAtAddress evm.ebakusState address) .errSystemContractError
      .ok (packDynamic contractAbi, evm)

/-- A successful call of the system contract ran one command on arguments
that decoded. -/
theorem Run_ok {evm : Evm} {caller : Address} {input : Slice UInt8} {result : List UInt8 × Evm}
    (ran : systemContract.Run evm caller input = .ok result) :
    ∃ command : Command, command.exec evm caller = .ok result := by
  unfold systemContract.Run at ran
  split at ran
  · cases ran
  obtain ⟨cmdData, -, ran⟩ := bind_eq_ok ran
  obtain ⟨inputData, -, ran⟩ := bind_eq_ok ran
  split at ran
  · cases ran
  -- one case per method name, then one per shape of the decoded arguments:
  -- arguments of the wrong shape end in an error, the others run their command
  split at ran
  all_goals (try split at ran)
  all_goals (try split at ran)
  all_goals (try (cases ran; done))
  all_goals first
    | exact ⟨.stake _, ran⟩
    | exact ⟨.getStaked, ran⟩
    | exact ⟨.unstake _, ran⟩
    | exact ⟨.claim, ran⟩
    | exact ⟨.vote _, ran⟩
    | exact ⟨.unvote, ran⟩
    | exact ⟨.electEnable _, ran⟩
    | exact ⟨.storeAbiForAddress _ _, ran⟩
    | exact ⟨.getAbiForAddress _, ran⟩

namespace systemContract

/-! The selector split `input[:4], input[4:]` comes before `MethodById` checks
that four bytes are there. An input of one to three bytes therefore panics in
both `RequiredGas` and `Run`, whatever the capacity behind it: within the
capacity `input[:4]` succeeds and `input[4:]` is past the length. -/

section SelectorSplit

theorem RequiredGas_of_short {input : Slice UInt8} (nonempty : 0 < input.len)
    (short : input.len < 4) :
    RequiredGas input = .error .sliceBoundsOutOfRange := by
  unfold RequiredGas
  rw [if_neg (by omega)]
  cases cut : input.sliceTo 4 with
  | error p =>
      rw [Slice.sliceTo_eq_error cut]
      rfl
  | ok cmdData => simp only [bind, Except.bind, Slice.sliceFrom_of_lt short]

theorem Run_of_short {evm : Evm} {caller : Address} {input : Slice UInt8}
    (nonempty : 0 < input.len) (short : input.len < 4) :
    Run evm caller input = .error (.panic .sliceBoundsOutOfRange) := by
  unfold Run
  rw [if_neg (by omega)]
  cases cut : input.sliceTo 4 with
  | error p =>
      rw [Slice.sliceTo_eq_error cut]
      rfl
  | ok cmdData => simp only [bind, Except.bind, liftGo, Slice.sliceFrom_of_lt short, Except.mapError]

end SelectorSplit

end systemContract

/-- `storeAbiAtAddress` stores an ABI under an Id that no row starts with. -/
theorem storeAbiAtAddress_of_absent {db : EbakusState} {contractAddress : Address}
    {abi : List UInt8}
    (absent : firstLike db.contractAbi id
      (GetContractAbiId contractAddress "abi".toUTF8.toList []) = none) :
    storeAbiAtAddress db contractAddress abi = .ok { db with
      contractAbi := db.contractAbi.insertObj
        (GetContractAbiId contractAddress "abi".toUTF8.toList []) abi } := by
  simp only [storeAbiAtAddress, absent]

/-- A successful `storeAbiAtAddress` wrote only the `ContractAbi` table. -/
theorem storeAbiAtAddress_frame {db db' : EbakusState} {contractAddress : Address} {abi : List UInt8}
    (stored : storeAbiAtAddress db contractAddress abi = .ok db') :
    db' = { db with contractAbi := db'.contractAbi } := by
  unfold storeAbiAtAddress at stored
  dsimp only at stored
  split at stored
  · cases stored
  · cases stored
    rfl

end Ebakus.Core.Vm
