/-
# The system contract's accounting from genesis

`SystemContractSetupDB` builds the genesis snapshot: one electable witness
with no stake, the two precompiles' ABIs, and nothing staked, delegated or
claimable. `Accounted` holds there for any balances. Every call of a run
decodes to one command of the system contract, and every command keeps
`Accounted`, so it holds after every run.

From `Accounted` over runs follow the stake accounting of the system contract
(the system stake and every witness's stake are the sums they stand for) and
the ledger of each account: the wei an account paid in over its own calls,
net of what it was paid back, is `precisionFactor` times what it has staked
and may claim, and the contract's balance covers every account's claims.
-/

import Ebakus.Core.Vm.StakeInvariant

namespace Ebakus.Core.Vm

open Ebakus.Lang Ebakus.Common Ebakus.Data

section Run

variable {initial : World}

/-- Every command of the system contract keeps the accounting invariant. -/
theorem Command.exec_keeps {evm evm' : Evm} {caller : Address} {out : List UInt8}
    (command : Command) (accounted : Accounted initial evm.stateDB evm.ebakusState)
    (supplyBound : ∑ a, initial.stateDB.balance a < 2 ^ 64 * precisionFactor)
    (notContract : caller ≠ PrecompliledSystemContract)
    (ran : command.exec evm caller = .ok (out, evm')) :
    Accounted initial evm'.stateDB evm'.ebakusState := by
  cases command with
  | stake amount =>
      -- `Run` claims what has vested before it stakes
      obtain ⟨⟨_, claimed⟩, claimRan, stakeRan⟩ := bind_eq_ok ran
      exact stakeCmd_keeps (claimCmd_keeps accounted supplyBound notContract claimRan) supplyBound
        notContract stakeRan
  | getStaked =>
      cases ran
      exact accounted
  | unstake amount => exact unstakeCmd_keeps accounted supplyBound notContract ran
  | claim => exact claimCmd_keeps accounted supplyBound notContract ran
  | vote addresses => exact voteCmd_keeps accounted supplyBound ran
  | unvote => exact unvoteCmd_keeps accounted ran
  | electEnable enable =>
      rw [Command.exec, systemContract.electEnableCmd_eq] at ran
      cases ran
      exact electEnableCmd_keeps accounted
  | storeAbiForAddress address abi =>
      obtain ⟨db, stored, finished⟩ := bind_eq_ok ran
      cases finished
      exact storeAbi_keeps accounted stored
  | getAbiForAddress address =>
      obtain ⟨_, -, finished⟩ := bind_eq_ok ran
      cases finished
      exact accounted

/-- A call keeps the invariant: a successful one ran a command, a failed one
was rolled back. -/
theorem applyCall_keeps {maxWitnessesVotes : UInt64} {world : World} {call : Call}
    (accounted : Accounted initial world.stateDB world.ebakusState)
    (supplyBound : ∑ a, initial.stateDB.balance a < 2 ^ 64 * precisionFactor)
    (notContract : call.caller ≠ PrecompliledSystemContract) :
    Accounted initial (applyCall maxWitnessesVotes world call).stateDB
      (applyCall maxWitnessesVotes world call).ebakusState := by
  unfold applyCall
  split
  · next out evm ran =>
      obtain ⟨command, ran⟩ := Run_ok ran
      exact command.exec_keeps accounted supplyBound notContract ran
  · exact accounted

theorem runCalls_keeps {maxWitnessesVotes : UInt64} {world : World} {calls : List Call}
    (accounted : Accounted initial world.stateDB world.ebakusState)
    (supplyBound : ∑ a, initial.stateDB.balance a < 2 ^ 64 * precisionFactor)
    (notContract : ∀ call ∈ calls, call.caller ≠ PrecompliledSystemContract) :
    Accounted initial (runCalls maxWitnessesVotes world calls).stateDB
      (runCalls maxWitnessesVotes world calls).ebakusState := by
  induction calls generalizing world with
  | nil => exact accounted
  | cons call calls ih =>
      exact ih (applyCall_keeps accounted supplyBound (notContract call List.mem_cons_self))
        fun later mem => notContract later (List.mem_cons_of_mem call mem)

end Run

section Genesis

/-- The snapshot `SystemContractSetupDB` builds is accounted, whatever the balances. -/
theorem SystemContractSetupDB_accounted {producer : Address} {stateDB : StateDB}
    {genesis : EbakusState} (setup : SystemContractSetupDB producer = .ok genesis) :
    Accounted ⟨stateDB, genesis⟩ stateDB genesis := by
  obtain ⟨db₁, stored₁, stored₂⟩ := bind_eq_ok setup
  -- before the ABIs are stored: one witness row with no stake, every other table empty
  have start : Accounted ⟨stateDB, genesis⟩ stateDB { EbakusState.empty with
      witnesses := (∅ : Table Address Witness).insertObj producer ⟨0, ElectEnabledFlag⟩ } := by
    refine ⟨⟨none, rfl, rfl⟩, ?_, ?_, ?_, ?_, rfl⟩
    · intro w r present
      rw [Table.get_insertObj] at present
      split at present
      · cases Option.some.inj present
        rfl
      · simp at present
    · intro id present
      simp [EbakusState.empty] at present
    · intro a _
      simp [stakedOf, claimableOf, Table.valueAt, EbakusState.empty]
    · simp [totalStaked, totalClaimable, EbakusState.empty]
  exact storeAbi_keeps (storeAbi_keeps start stored₁) stored₂

/-- `SystemContractSetupDB` succeeds on the empty snapshot: neither precompile
has an ABI yet. -/
theorem SystemContractSetupDB_ok (producer : Address) :
    ∃ genesis, SystemContractSetupDB producer = .ok genesis := by
  unfold SystemContractSetupDB
  dsimp only
  rw [storeAbiAtAddress_of_absent rfl]
  simp only [bind, Except.bind]
  refine ⟨_, storeAbiAtAddress_of_absent ?_⟩
  -- the one stored Id, the system contract's, does not start with the DB contract's
  simp only [firstLike, selectLike, Table.select, Table.rows, Table.insertObj, EbakusState.empty]
  decide

end Genesis

section Ledger

/-- A successful `claimCmd` moves wei only between the contract and the caller. -/
theorem claimCmd_balance_other {evm evm' : Evm} {caller a : Address} {out : List UInt8}
    (notCaller : a ≠ caller) (notContract : a ≠ PrecompliledSystemContract)
    (claimed : systemContract.claimCmd evm caller = .ok (out, evm')) :
    evm'.stateDB.balance a = evm.stateDB.balance a := by
  obtain ⟨-, rfl⟩ := systemContract.claimCmd_effects claimed
  dsimp only
  split
  · rfl
  · exact StateDB.Transfer_balance_other notContract notCaller

/-- A command moves wei only between the contract and the caller. -/
theorem Command.exec_balance_other {evm evm' : Evm} {caller a : Address} {out : List UInt8}
    (command : Command) (notCaller : a ≠ caller) (notContract : a ≠ PrecompliledSystemContract)
    (ran : command.exec evm caller = .ok (out, evm')) :
    evm'.stateDB.balance a = evm.stateDB.balance a := by
  cases command with
  | stake amount =>
      obtain ⟨⟨_, claimed⟩, claimRan, stakeRan⟩ := bind_eq_ok ran
      obtain ⟨_, _, _, _, _, _, _, _, _, _, _, rfl⟩ := systemContract.stakeCmd_effects stakeRan
      rw [← claimCmd_balance_other notCaller notContract claimRan]
      exact StateDB.Transfer_balance_other notCaller notContract
  | getStaked => cases ran; rfl
  | unstake amount =>
      obtain ⟨_, _, _, _, _, _, _, _, _, _, _, _, _, _, rfl⟩ :=
        systemContract.unstakeCmd_effects ran
      rfl
  | claim => exact claimCmd_balance_other notCaller notContract ran
  | vote addresses =>
      obtain ⟨_, _, _, _, _, _, _, rfl⟩ := systemContract.voteCmd_effects ran
      rfl
  | unvote =>
      obtain ⟨_, _, _, _, _, rfl⟩ := systemContract.unvoteCmd_effects ran
      rfl
  | electEnable enable =>
      rw [Command.exec, systemContract.electEnableCmd_eq] at ran
      cases ran
      rfl
  | storeAbiForAddress address abi =>
      obtain ⟨_, -, finished⟩ := bind_eq_ok ran
      cases finished
      rfl
  | getAbiForAddress address =>
      obtain ⟨_, -, finished⟩ := bind_eq_ok ran
      cases finished
      rfl

theorem applyCall_balance_other {maxWitnessesVotes : UInt64} {world : World} {call : Call}
    {a : Address} (notCaller : a ≠ call.caller) (notContract : a ≠ PrecompliledSystemContract) :
    (applyCall maxWitnessesVotes world call).stateDB.balance a = world.stateDB.balance a := by
  unfold applyCall
  split
  · next out evm ran =>
      obtain ⟨command, ran⟩ := Run_ok ran
      exact command.exec_balance_other notCaller notContract ran
  · rfl

/-- The wei the account `a` paid into the system contract over a run, net of
what the contract paid back to it: what left `a`'s balance during `a`'s own
calls, where `stake` moves wei to the contract and `claim` moves it back. -/
def netPaid (maxWitnessesVotes : UInt64) (a : Address) : World → List Call → Int
  | _, [] => 0
  | world, call :: calls =>
      (if call.caller = a then
        (world.stateDB.balance a : Int) - (applyCall maxWitnessesVotes world call).stateDB.balance a
      else 0) + netPaid maxWitnessesVotes a (applyCall maxWitnessesVotes world call) calls

/-- Only an account's own calls move its wei, so what it paid in net is what
its balance dropped by over the run. -/
theorem netPaid_eq_balance_drop (maxWitnessesVotes : UInt64) {a : Address}
    (notContract : a ≠ PrecompliledSystemContract) (world : World) (calls : List Call) :
    netPaid maxWitnessesVotes a world calls =
      (world.stateDB.balance a : Int) - (runCalls maxWitnessesVotes world calls).stateDB.balance a := by
  induction calls generalizing world with
  | nil => simp [netPaid, runCalls]
  | cons call calls ih =>
      rw [netPaid, ih]
      change _ = (world.stateDB.balance a : Int) -
        (runCalls maxWitnessesVotes (applyCall maxWitnessesVotes world call) calls).stateDB.balance a
      split
      · omega
      · rename_i other
        rw [applyCall_balance_other (Ne.symm other) notContract]
        omega

/-- In an accounted state the contract can pay every claim: `claimCmd` pays
the caller the wei of its vested entries and deletes exactly those. -/
theorem claimCmd_of_accounted {initial : World} {evm : Evm} {owner : Address}
    (accounted : Accounted initial evm.stateDB evm.ebakusState)
    (supplyBound : ∑ a, initial.stateDB.balance a < 2 ^ 64 * precisionFactor) :
    systemContract.claimCmd evm owner = .ok ([], { evm with
      stateDB := if systemContract.vestedOf evm.ebakusState owner evm.time = 0 then evm.stateDB
        else evm.stateDB.Transfer PrecompliledSystemContract owner
          (systemContract.vestedOf evm.ebakusState owner evm.time * precisionFactor)
      ebakusState := { evm.ebakusState with
        claimable := evm.ebakusState.claimable.deleteAll (systemContract.claimedIds evm owner) } }) := by
  have paid : (systemContract.claimedAmount evm owner).toNat =
      systemContract.vestedOf evm.ebakusState owner evm.time :=
    claimedAmount_toNat_of_accounted accounted supplyBound
  have canPay : (systemContract.claimedAmount evm owner).toNat * precisionFactor ≤
      evm.stateDB.balance PrecompliledSystemContract := by
    have vested := vestedOf_le_totalClaimable evm owner
    have held := accounted.contract
    rw [paid, Nat.mul_comm]
    calc precisionFactor * systemContract.vestedOf evm.ebakusState owner evm.time
        ≤ precisionFactor * (totalStaked evm.ebakusState + totalClaimable evm.ebakusState) :=
          Nat.mul_le_mul_left _ (by omega)
      _ ≤ evm.stateDB.balance PrecompliledSystemContract := by omega
  have nothing : systemContract.claimedAmount evm owner = 0 ↔
      systemContract.vestedOf evm.ebakusState owner evm.time = 0 := by
    rw [← paid, ← UInt64.toNat_inj, UInt64.toNat_zero]
  rw [systemContract.claimCmd_eq canPay, paid]
  simp only [nothing]

end Ledger

section FromGenesis

variable {producer : Address} {genesis : EbakusState} {stateDB : StateDB}
  {maxWitnessesVotes : UInt64} {calls : List Call}

/-- One caller holding `10^18` wei keeps the supply below the bound. -/
theorem funded_supplyBound :
    ∑ a, (if a = BytesToAddress [7] then 10 ^ 18 else 0 : Nat) < 2 ^ 64 * precisionFactor := by
  rw [Finset.sum_ite_eq' Finset.univ (BytesToAddress [7]), if_pos (Finset.mem_univ _), precisionFactor]
  norm_num

/-- From genesis, that caller's call `stake(1)` stakes one unit. -/
theorem staked_of_stake {genesis : EbakusState} (setup : SystemContractSetupDB PrecompliledDBContract = .ok genesis) :
    stakedOf (runCalls 30 ⟨⟨fun a => if a = BytesToAddress [7] then 10 ^ 18 else 0⟩, genesis⟩
      [⟨BytesToAddress [7], [0x3a, 0x29, 0xdb, 0xae] ++ Accounts.Abi.packNum 1, 0⟩]).ebakusState (BytesToAddress [7]) = 1 := by
  have ran : (match SystemContractSetupDB PrecompliledDBContract with
      | .ok genesis => stakedOf (runCalls 30 ⟨⟨fun a => if a = BytesToAddress [7] then 10 ^ 18 else 0⟩, genesis⟩
          [⟨BytesToAddress [7], [0x3a, 0x29, 0xdb, 0xae] ++ Accounts.Abi.packNum 1, 0⟩]).ebakusState (BytesToAddress [7])
      | .error _ => 0) = 1 := by
    decide
  rwa [setup] at ran

/-- After any run from the genesis snapshot the system stake under
`SystemStakeDBKey` decodes to the sum of the `Staked` amounts, and every
witness's stake is the sum of the stakes of the accounts that delegate to it. -/
theorem runCalls_stakes_accounted
    (setup : SystemContractSetupDB producer = .ok genesis)
    (supplyBound : ∑ a, stateDB.balance a < 2 ^ 64 * precisionFactor)
    (notContract : ∀ call ∈ calls, call.caller ≠ PrecompliledSystemContract) :
    let final := runCalls maxWitnessesVotes ⟨stateDB, genesis⟩ calls
    (∃ v, systemStaked final.ebakusState = .ok v ∧ (v.getD 0).toNat = totalStaked final.ebakusState) ∧
      StakesMatch final.ebakusState (stakedOf final.ebakusState) := by
  intro final
  have accounted : Accounted ⟨stateDB, genesis⟩ final.stateDB final.ebakusState :=
    runCalls_keeps (SystemContractSetupDB_accounted setup) supplyBound notContract
  exact ⟨accounted.systemStake, accounted.stakes⟩

/-- The caller `BytesToAddress [7]`, funded with `10^18` wei, stakes one unit. -/
theorem runCalls_stakes_accounted_of_stake :
    ∃ genesis, SystemContractSetupDB PrecompliledDBContract = .ok genesis ∧
      let calls : List Call := [⟨BytesToAddress [7], [0x3a, 0x29, 0xdb, 0xae] ++ Accounts.Abi.packNum 1, 0⟩]
      let final := runCalls 30 ⟨⟨fun a => if a = BytesToAddress [7] then 10 ^ 18 else 0⟩, genesis⟩ calls
      stakedOf final.ebakusState (BytesToAddress [7]) = 1 ∧
        (∃ v, systemStaked final.ebakusState = .ok v ∧ (v.getD 0).toNat = totalStaked final.ebakusState) ∧
        StakesMatch final.ebakusState (stakedOf final.ebakusState) := by
  obtain ⟨genesis, setup⟩ := SystemContractSetupDB_ok PrecompliledDBContract
  refine ⟨genesis, setup, staked_of_stake setup, runCalls_stakes_accounted setup funded_supplyBound ?_⟩
  intro call mem
  rw [List.mem_singleton] at mem
  subst mem
  decide

/-- The ledger of every account over any run from the genesis snapshot. The wei
an account paid in over its own calls, net of what it was paid back, is
`precisionFactor` times what it has staked and may claim; the contract's
balance covers all stakes and claims; and a claim at any block time succeeds,
pays the caller the wei of its entries that have vested by then, and deletes
exactly those entries. -/
theorem runCalls_ledger
    (setup : SystemContractSetupDB producer = .ok genesis)
    (supplyBound : ∑ a, stateDB.balance a < 2 ^ 64 * precisionFactor)
    (notContract : ∀ call ∈ calls, call.caller ≠ PrecompliledSystemContract) :
    let final := runCalls maxWitnessesVotes ⟨stateDB, genesis⟩ calls
    (∀ a, a ≠ PrecompliledSystemContract →
      netPaid maxWitnessesVotes a ⟨stateDB, genesis⟩ calls =
        precisionFactor * (stakedOf final.ebakusState a + claimableOf final.ebakusState a)) ∧
    precisionFactor * (totalStaked final.ebakusState + totalClaimable final.ebakusState) ≤
      final.stateDB.balance PrecompliledSystemContract ∧
    ∀ owner time,
      let vested := systemContract.vestedOf final.ebakusState owner time
      systemContract.claimCmd (final.evm maxWitnessesVotes time) owner = .ok ([],
        { final.evm maxWitnessesVotes time with
          stateDB := if vested = 0 then final.stateDB
            else final.stateDB.Transfer PrecompliledSystemContract owner (vested * precisionFactor)
          ebakusState := { final.ebakusState with
            claimable := final.ebakusState.claimable.deleteAll
              (systemContract.claimedIds (final.evm maxWitnessesVotes time) owner) } }) ∧
      ∀ id c, final.ebakusState.claimable.get id = some c →
        (id ∈ systemContract.claimedIds (final.evm maxWitnessesVotes time) owner ↔
          id.owner = owner ∧ c.timestamp ≤ time) := by
  intro final
  have accounted : Accounted ⟨stateDB, genesis⟩ final.stateDB final.ebakusState :=
    runCalls_keeps (SystemContractSetupDB_accounted setup) supplyBound notContract
  refine ⟨fun a notTheContract => ?_, ?_, fun owner time => ⟨?_, fun id c stored => ?_⟩⟩
  · -- only the account's own calls moved its wei
    rw [netPaid_eq_balance_drop maxWitnessesVotes notTheContract]
    have paidIn : (stateDB.balance a : Int) = final.stateDB.balance a +
        precisionFactor * (stakedOf final.ebakusState a + claimableOf final.ebakusState a) := by
      exact_mod_cast accounted.account a notTheContract
    change (stateDB.balance a : Int) - (final.stateDB.balance a : Int) = _
    rw [paidIn]
    omega
  · rw [accounted.contract]
    exact Nat.le_add_left _ _
  · exact claimCmd_of_accounted accounted supplyBound
  · exact systemContract.mem_claimedIds stored

/-- The same funded stake of one unit, for the ledger. -/
theorem runCalls_ledger_of_stake :
    ∃ genesis, SystemContractSetupDB PrecompliledDBContract = .ok genesis ∧
      let calls : List Call := [⟨BytesToAddress [7], [0x3a, 0x29, 0xdb, 0xae] ++ Accounts.Abi.packNum 1, 0⟩]
      let stateDB : StateDB := ⟨fun a => if a = BytesToAddress [7] then 10 ^ 18 else 0⟩
      let final := runCalls 30 ⟨stateDB, genesis⟩ calls
      stakedOf final.ebakusState (BytesToAddress [7]) = 1 ∧
      (∀ a, a ≠ PrecompliledSystemContract →
        netPaid 30 a ⟨stateDB, genesis⟩ calls =
          precisionFactor * (stakedOf final.ebakusState a + claimableOf final.ebakusState a)) ∧
      precisionFactor * (totalStaked final.ebakusState + totalClaimable final.ebakusState) ≤
        final.stateDB.balance PrecompliledSystemContract ∧
      ∀ owner time,
        let vested := systemContract.vestedOf final.ebakusState owner time
        systemContract.claimCmd (final.evm 30 time) owner = .ok ([],
          { final.evm 30 time with
            stateDB := if vested = 0 then final.stateDB
              else final.stateDB.Transfer PrecompliledSystemContract owner (vested * precisionFactor)
            ebakusState := { final.ebakusState with
              claimable := final.ebakusState.claimable.deleteAll
                (systemContract.claimedIds (final.evm 30 time) owner) } }) ∧
        ∀ id c, final.ebakusState.claimable.get id = some c →
          (id ∈ systemContract.claimedIds (final.evm 30 time) owner ↔
            id.owner = owner ∧ c.timestamp ≤ time) := by
  obtain ⟨genesis, setup⟩ := SystemContractSetupDB_ok PrecompliledDBContract
  refine ⟨genesis, setup, staked_of_stake setup, runCalls_ledger setup funded_supplyBound ?_⟩
  intro call mem
  rw [List.mem_singleton] at mem
  subst mem
  decide

end FromGenesis

end Ebakus.Core.Vm
