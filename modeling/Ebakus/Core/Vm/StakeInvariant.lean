/-
# The system contract's accounting over whole runs

A run is a sequence of calls of `systemContract.Run`, each from some account,
with some call data, at some block time. A call that fails is rolled back, as
`evm.Call` reverts to its snapshot, so that only successful calls change the
balances and the ebakusdb snapshot.

`Accounted` is the invariant of such runs. It ties the system stake under
`SystemStakeDBKey` to the `Staked` rows, every witness's stake to the stake
of its delegators, and every account's balance to what it has staked and what
it may claim: the wei an account is missing since the start of the run is
exactly `precisionFactor` times its holdings, and the contract holds all of
it. One lemma per command shows that a successful command keeps `Accounted`;
the balance side of each is a `LedgerStep`.

The contract never calls itself, so no call has the contract as its caller;
this is the one assumption on the calls besides the bound on the wei in
existence, which makes every amount of tokens fit in a `uint64`.
-/

import Ebakus.Core.Vm.CommandSpec
import Ebakus.Core.Vm.StakeAccounting
import Mathlib.Algebra.Order.BigOperators.Group.Finset

namespace Ebakus.Core.Vm

open Ebakus.Lang Ebakus.Common Ebakus.Data

/-- The balances and the snapshot that calls of the system contract change. -/
structure World where
  stateDB : StateDB
  ebakusState : EbakusState

/-- A call of the system contract: the calling account, the call data and the
block time. -/
structure Call where
  caller : Address
  input : List UInt8
  time : UInt64

/-- The EVM a call runs in. -/
def World.evm (world : World) (maxWitnessesVotes time : UInt64) : Evm :=
  ⟨time, maxWitnessesVotes, world.stateDB, world.ebakusState⟩

/-- One call through `evm.Call`: what the precompile wrote is kept when it
returns, and rolled back when it fails. -/
def applyCall (maxWitnessesVotes : UInt64) (world : World) (call : Call) : World :=
  match systemContract.Run (world.evm maxWitnessesVotes call.time) call.caller
      (Slice.ofList call.input) with
  | .ok (_, evm) => ⟨evm.stateDB, evm.ebakusState⟩
  | .error _ => world

/-- A sequence of calls, one after another. -/
def runCalls (maxWitnessesVotes : UInt64) (world : World) (calls : List Call) : World :=
  calls.foldl (applyCall maxWitnessesVotes) world

section Invariant

variable (initial : World)

/-- The accounting invariant of a run that started at `initial`. -/
structure Accounted (stateDB : StateDB) (db : EbakusState) : Prop where
  systemStake : ∃ v, systemStaked db = .ok v ∧ (v.getD 0).toNat = totalStaked db
  stakes : StakesMatch db (stakedOf db)
  witnessed : Witnessed db
  account : ∀ a, a ≠ PrecompliledSystemContract →
    initial.stateDB.balance a = stateDB.balance a + precisionFactor * (stakedOf db a + claimableOf db a)
  contract : stateDB.balance PrecompliledSystemContract =
    initial.stateDB.balance PrecompliledSystemContract +
      precisionFactor * (totalStaked db + totalClaimable db)
  supply : ∑ a, stateDB.balance a = ∑ a, initial.stateDB.balance a

/-- How a command may move balances and holdings: only the caller's and the
contract's balances change, the caller's balance pays for its new holdings,
and the contract's balance follows the holdings of all accounts. -/
structure LedgerStep (owner : Address) (stateDB stateDB' : StateDB) (db db' : EbakusState) : Prop where
  others : ∀ a, a ≠ owner → a ≠ PrecompliledSystemContract →
    stateDB'.balance a = stateDB.balance a ∧
      stakedOf db' a + claimableOf db' a = stakedOf db a + claimableOf db a
  owner : stateDB'.balance owner + precisionFactor * (stakedOf db' owner + claimableOf db' owner) =
    stateDB.balance owner + precisionFactor * (stakedOf db owner + claimableOf db owner)
  contract : stateDB'.balance PrecompliledSystemContract +
      precisionFactor * (totalStaked db + totalClaimable db) =
    stateDB.balance PrecompliledSystemContract +
      precisionFactor * (totalStaked db' + totalClaimable db')
  supply : ∑ a, stateDB'.balance a = ∑ a, stateDB.balance a

variable {initial}

/-- The ledger half of the invariant survives every `LedgerStep` of an account
other than the contract. -/
theorem Accounted.step {owner : Address} {stateDB stateDB' : StateDB} {db db' : EbakusState}
    (accounted : Accounted initial stateDB db) (notContract : owner ≠ PrecompliledSystemContract)
    (ledger : LedgerStep owner stateDB stateDB' db db')
    (systemStake : ∃ v, systemStaked db' = .ok v ∧ (v.getD 0).toNat = totalStaked db')
    (stakes : StakesMatch db' (stakedOf db')) (witnessed : Witnessed db') :
    Accounted initial stateDB' db' := by
  refine ⟨systemStake, stakes, witnessed, ?_, ?_, ledger.supply.trans accounted.supply⟩
  · intro a notTheContract
    have before := accounted.account a notTheContract
    by_cases caller : a = owner
    · subst caller
      have moved := ledger.owner
      omega
    · obtain ⟨balance, holdings⟩ := ledger.others a caller notTheContract
      rw [balance, holdings]
      exact before
  · have before := accounted.contract
    have moved := ledger.contract
    rw [Nat.mul_add, Nat.mul_add] at *
    omega

/-- With less than `2^64` tokens' worth of wei in existence, all staked and
claimable amounts together stay below `2^64`. -/
theorem Accounted.bounded {stateDB : StateDB} {db : EbakusState}
    (accounted : Accounted initial stateDB db)
    (supplyBound : ∑ a, initial.stateDB.balance a < 2 ^ 64 * precisionFactor) :
    totalStaked db + totalClaimable db < 2 ^ 64 := by
  have held : precisionFactor * (totalStaked db + totalClaimable db) ≤
      stateDB.balance PrecompliledSystemContract := by
    rw [accounted.contract]
    exact Nat.le_add_left _ _
  have single : stateDB.balance PrecompliledSystemContract ≤ ∑ a, stateDB.balance a :=
    Finset.single_le_sum (fun _ _ => Nat.zero_le _) (Finset.mem_univ _)
  rw [accounted.supply] at single
  have scaled : (totalStaked db + totalClaimable db) * precisionFactor < 2 ^ 64 * precisionFactor := by
    rw [Nat.mul_comm]
    omega
  exact Nat.lt_of_mul_lt_mul_right scaled

end Invariant

section Holdings

/-- The holdings of every account, and their totals, depend only on the
`Staked` and `Claimable` tables. -/
theorem holdings_eq_of {db db' : EbakusState} (staked : db'.staked = db.staked)
    (claimable : db'.claimable = db.claimable) :
    stakedOf db' = stakedOf db ∧ claimableOf db' = claimableOf db ∧
      totalStaked db' = totalStaked db ∧ totalClaimable db' = totalClaimable db := by
  refine ⟨?_, ?_, ?_, ?_⟩
  · funext a
    simp [stakedOf, staked]
  · funext a
    simp [claimableOf, claimable]
  · simp [totalStaked, staked]
  · simp [totalClaimable, claimable]

/-- A witness without a row has no delegations, and so nothing delegated. -/
theorem delegatedTo_eq_zero_of_absent {db : EbakusState} {w : Address} (witnessed : Witnessed db)
    (absent : db.witnesses.get w = none) (weight : Address → Nat) :
    delegatedTo db.delegations weight w = 0 := by
  have vanish : ∀ id u, db.delegations.get id = some u →
      (if id.witness = w then weight id.delegator else 0) = 0 := by
    intro id u stored
    have named := witnessed id (by simp [stored])
    have differ : id.witness ≠ w := by
      rintro rfl
      exact named absent
    simp [differ]
  unfold delegatedTo
  rw [Table.sum_congr vanish, Table.sum_zero]

/-- Upserting an account's `Staked` row replaces its share of the total. -/
theorem staked_insertObj {db db' : EbakusState} {a : Address} {amount : UInt64}
    (staked : db'.staked = db.staked.insertObj a amount) :
    (∀ b, stakedOf db' b = if b = a then amount.toNat else stakedOf db b) ∧
      totalStaked db' + stakedOf db a = amount.toNat + totalStaked db := by
  refine ⟨fun b => ?_, ?_⟩
  · by_cases same : b = a
    · simp [stakedOf, Table.valueAt, staked, same]
    · simp [stakedOf, Table.valueAt, staked, same, Table.get_insertObj_ne same]
  · unfold totalStaked stakedOf
    rw [staked, Table.sum_insertObj, Table.sum_deleteObj_add db.staked a]
    unfold Table.valueAt
    dsimp only
    omega

/-- Deleting an account's `Staked` row removes its share of the total. -/
theorem staked_deleteObj {db db' : EbakusState} {a : Address}
    (staked : db'.staked = db.staked.deleteObj a) :
    (∀ b, stakedOf db' b = if b = a then 0 else stakedOf db b) ∧
      totalStaked db' + stakedOf db a = totalStaked db := by
  refine ⟨fun b => ?_, ?_⟩
  · by_cases same : b = a
    · simp [stakedOf, Table.valueAt, staked, same]
    · simp [stakedOf, Table.valueAt, staked, same, Table.get_deleteObj_ne same]
  · unfold totalStaked stakedOf
    rw [staked, Table.sum_deleteObj_add db.staked a]
    rfl

/-- A new claimable entry adds its amount to its owner's claims. -/
theorem claimable_insertObj_fresh {db db' : EbakusState} {id : ClaimableId} {c : Claimable}
    (claimable : db'.claimable = db.claimable.insertObj id c) (fresh : db.claimable.get id = none) :
    (∀ b, claimableOf db' b = claimableOf db b + if id.owner = b then c.amount.toNat else 0) ∧
      totalClaimable db' = totalClaimable db + c.amount.toNat := by
  refine ⟨fun b => ?_, ?_⟩
  · unfold claimableOf
    rw [claimable, Table.sum_insertObj, Table.deleteObj_of_get_none fresh, Nat.add_comm]
  · unfold totalClaimable
    rw [claimable, Table.sum_insertObj, Table.deleteObj_of_get_none fresh, Nat.add_comm]

/-- Unstaking lowers the caller's stake by `amount` and drops its row once nothing is left. -/
theorem staked_reduce {db db' : EbakusState} {a : Address} {old amount : UInt64}
    (present : db.staked.get a = some old) (within : amount ≤ old)
    (staked : db'.staked = if amount = old then db.staked.deleteObj a
      else db.staked.insertObj a (old - amount)) :
    (∀ b, stakedOf db' b = if b = a then old.toNat - amount.toNat else stakedOf db b) ∧
      totalStaked db' + amount.toNat = totalStaked db := by
  have own := stakedOf_of_get present
  by_cases all : amount = old
  · rw [if_pos all] at staked
    subst all
    obtain ⟨stakes, total⟩ := staked_deleteObj staked
    refine ⟨fun b => ?_, by omega⟩
    rw [stakes b, Nat.sub_self]
  · rw [if_neg all] at staked
    obtain ⟨stakes, total⟩ := staked_insertObj staked
    rw [UInt64.toNat_sub_of_le _ _ within] at stakes total
    have withinNat := UInt64.le_iff_toNat_le.mp within
    exact ⟨stakes, by omega⟩

/-- The claimable entries `stakeCmd` consumes cover `covered` of the amount,
all of it taken from the caller's claims. -/
theorem stake_claimables {db db' : EbakusState} {owner : Address}
    {amount covered : UInt64} {marked : List ClaimableId} {table' : Table ClaimableId Claimable}
    (consumed : consumeClaimables amount (claimablesDescending db owner) 0 [] db.claimable =
      (covered, marked, table'))
    (claimable : db'.claimable = table'.deleteAll marked) :
    covered ≤ amount ∧
      (∀ b, claimableOf db' b + (if b = owner then covered.toNat else 0) = claimableOf db b) ∧
      totalClaimable db' + covered.toNat = totalClaimable db := by
  have stored : ∀ row ∈ claimablesDescending db owner,
      db.claimable.get row.1 = some row.2 ∧ row.1 ∉ ([] : List ClaimableId) :=
    fun row member => ⟨(mem_claimablesDescending.mp member).1, List.not_mem_nil⟩
  have owners : ∀ row ∈ claimablesDescending db owner, row.1.owner = owner :=
    fun row member => (mem_claimablesDescending.mp member).2
  -- one weight per account, and the weight one for the totals
  have weighted (weight : ClaimableId → Nat) (c : Nat)
      (constant : ∀ row ∈ claimablesDescending db owner, weight row.1 = c) :
      covered ≤ amount ∧
        (db'.claimable.sum fun id r => weight id * r.amount.toNat) + c * covered.toNat =
          db.claimable.sum fun id r => weight id * r.amount.toNat := by
    obtain ⟨bound, equation⟩ := consumeClaimables_spec weight c (nodup_claimablesDescending db owner)
      stored constant (UInt64.zero_le : (0 : UInt64) ≤ amount) consumed
    rw [owed_eq_sum_deleteAll, owed_eq_sum_deleteAll, UInt64.toNat_zero, Nat.mul_zero,
      Nat.add_zero] at equation
    refine ⟨bound, ?_⟩
    rw [claimable, equation]
    rfl
  have ownerWeight (b : Address) :
      (fun (id : ClaimableId) (r : Claimable) => (if id.owner = b then 1 else 0) * r.amount.toNat) =
        fun id r => if id.owner = b then r.amount.toNat else 0 := by
    funext id r
    split <;> simp
  refine ⟨(weighted (fun _ => 1) 1 (fun _ _ => rfl)).1, fun b => ?_, ?_⟩
  · have share := (weighted (fun id => if id.owner = b then 1 else 0) (if owner = b then 1 else 0)
      (fun row member => by simp [owners row member])).2
    rw [ownerWeight] at share
    by_cases same : b = owner
    · subst same
      simpa [claimableOf] using share
    · simpa [claimableOf, same, Ne.symm same] using share
  · simpa [totalClaimable] using (weighted (fun _ => 1) 1 (fun _ _ => rfl)).2

end Holdings

section Commands

variable {initial : World}

/-- A command that writes neither `Staked`, `Claimable` nor the raw keys, nor
any balance, keeps the invariant as long as the stakes still match. -/
theorem Accounted.of_same_holdings {stateDB : StateDB} {db db' : EbakusState}
    (accounted : Accounted initial stateDB db) (staked : db'.staked = db.staked)
    (claimable : db'.claimable = db.claimable) (keys : db'.keys = db.keys)
    (stakes : StakesMatch db' (stakedOf db)) (witnessed : Witnessed db') :
    Accounted initial stateDB db' := by
  obtain ⟨sameStaked, sameClaimable, sameTotalStaked, sameTotalClaimable⟩ :=
    holdings_eq_of staked claimable
  have sameKey : systemStaked db' = systemStaked db := by
    simp [systemStaked, keys]
  refine ⟨?_, ?_, witnessed, ?_, ?_, accounted.supply⟩
  · rw [sameKey, sameTotalStaked]
    exact accounted.systemStake
  · rw [sameStaked]
    exact stakes
  · rw [sameStaked, sameClaimable]
    exact accounted.account
  · rw [sameTotalStaked, sameTotalClaimable]
    exact accounted.contract

theorem storeAbi_keeps {stateDB : StateDB} {db db' : EbakusState} {contractAddress : Address}
    {abi : List UInt8} (accounted : Accounted initial stateDB db)
    (stored : storeAbiAtAddress db contractAddress abi = .ok db') :
    Accounted initial stateDB db' := by
  have frame := storeAbiAtAddress_frame stored
  have sameWitnesses : db'.witnesses = db.witnesses := by rw [frame]
  have sameDelegations : db'.delegations = db.delegations := by rw [frame]
  apply accounted.of_same_holdings (by rw [frame]) (by rw [frame]) (by rw [frame])
  · intro w r present
    rw [sameWitnesses] at present
    rw [sameDelegations]
    exact accounted.stakes w r present
  · intro id present
    rw [sameDelegations] at present
    rw [sameWitnesses]
    exact accounted.witnessed id present

theorem electEnableCmd_keeps {evm : Evm} {owner : Address} {enable : Bool}
    (accounted : Accounted initial evm.stateDB evm.ebakusState) :
    Accounted initial evm.stateDB
      { evm.ebakusState with
        witnesses := evm.ebakusState.witnesses.insertObj owner
          ⟨((evm.ebakusState.witnesses.get owner).getD ⟨0, 0⟩).stake,
            if enable then ((evm.ebakusState.witnesses.get owner).getD ⟨0, 0⟩).flags ||| ElectEnabledFlag
            else ((evm.ebakusState.witnesses.get owner).getD ⟨0, 0⟩).flags &&& ~~~ElectEnabledFlag⟩ } := by
  refine accounted.of_same_holdings rfl rfl rfl ?_ ?_
  · intro w r present
    rw [Table.get_insertObj] at present
    split at present
    · -- the account's own row keeps its stake, or starts at zero with nothing delegated
      rename_i same
      subst same
      cases Option.some.inj present
      cases stored : evm.ebakusState.witnesses.get w with
      | some old => simpa [stored] using accounted.stakes w old stored
      | none =>
          simpa [stored] using
            (delegatedTo_eq_zero_of_absent accounted.witnessed stored (stakedOf evm.ebakusState)).symm
    · exact accounted.stakes w r present
  · intro id present
    rw [Table.get_insertObj]
    split
    · simp
    · exact accounted.witnessed id present

theorem voteCmd_keeps {evm evm' : Evm} {owner : Address} {addresses : List Address}
    {out : List UInt8} (accounted : Accounted initial evm.stateDB evm.ebakusState)
    (supplyBound : ∑ a, initial.stateDB.balance a < 2 ^ 64 * precisionFactor)
    (voted : systemContract.voteCmd evm owner addresses = .ok (out, evm')) :
    Accounted initial evm'.stateDB evm'.ebakusState := by
  obtain ⟨stakedAmount, db₁, withdrawn, db₂, stored, unvoted, revoted, rfl⟩ :=
    systemContract.voteCmd_effects voted
  have own : stakedAmount.toNat = stakedOf evm.ebakusState owner := (stakedOf_of_get stored).symm
  obtain ⟨stakes₁, witnessed₁, fresh₁⟩ :=
    unvote_keeps accounted.stakes accounted.witnessed own unvoted
  obtain ⟨staked₁, claimable₁, -, keys₁⟩ := others_of_frame (unvote_spec unvoted).frame
  obtain ⟨staked₂, claimable₂, -, keys₂⟩ :=
    others_of_frame (vote_spec (nodup_unique addresses) revoted).frame
  -- no witness can be delegated more than all stakes together
  have bounded : ∀ w, delegatedTo db₂.delegations (stakedOf evm.ebakusState) w < 2 ^ 64 := by
    intro w
    have total := accounted.bounded supplyBound
    have below := delegatedTo_le_totalStaked db₂.delegations evm.ebakusState w
    omega
  obtain ⟨stakes₂, witnessed₂⟩ :=
    vote_keeps stakes₁ witnessed₁ fresh₁ (nodup_unique addresses) own revoted bounded
  exact accounted.of_same_holdings (staked₂.trans staked₁) (claimable₂.trans claimable₁)
    (keys₂.trans keys₁) stakes₂ witnessed₂

theorem unvoteCmd_keeps {evm evm' : Evm} {owner : Address} {out : List UInt8}
    (accounted : Accounted initial evm.stateDB evm.ebakusState)
    (unvoted : systemContract.unvoteCmd evm owner = .ok (out, evm')) :
    Accounted initial evm'.stateDB evm'.ebakusState := by
  obtain ⟨stakedAmount, db₁, withdrawn, stored, withdrew, rfl⟩ :=
    systemContract.unvoteCmd_effects unvoted
  have own : stakedAmount.toNat = stakedOf evm.ebakusState owner := (stakedOf_of_get stored).symm
  obtain ⟨stakes₁, witnessed₁, -⟩ := unvote_keeps accounted.stakes accounted.witnessed own withdrew
  obtain ⟨staked₁, claimable₁, -, keys₁⟩ := others_of_frame (unvote_spec withdrew).frame
  exact accounted.of_same_holdings staked₁ claimable₁ keys₁ stakes₁ witnessed₁

/-- What an account may claim, split into the part that has vested and the rest. -/
theorem vested_share (db : EbakusState) (owner b : Address) (time : UInt64) :
    db.claimable.sum (fun id c => if id.owner = owner ∧ c.timestamp ≤ time then
        (if id.owner = b then c.amount.toNat else 0) else 0) =
      if b = owner then systemContract.vestedOf db owner time else 0 := by
  by_cases same : b = owner
  · subst same
    simp only [if_true, systemContract.vestedOf]
    apply Table.sum_congr
    intro id c _
    by_cases mine : id.owner = b <;> simp [mine]
  · simp only [same, if_false]
    refine (Table.sum_congr ?_).trans (Table.sum_zero db.claimable)
    intro id c _
    by_cases mine : id.owner = owner
    · simp [mine, Ne.symm same]
    · simp [mine]

theorem vestedOf_le_totalClaimable (evm : Evm) (owner : Address) :
    systemContract.vestedOf evm.ebakusState owner evm.time ≤ totalClaimable evm.ebakusState := by
  have split := systemContract.sum_deleteAll_claimedIds evm owner fun _ c => c.amount.toNat
  unfold systemContract.vestedOf totalClaimable
  omega

/-- In an accounted state the vested amount fits in a `uint64`, so `claimCmd`
pays all of it. -/
theorem claimedAmount_toNat_of_accounted {evm : Evm} {owner : Address}
    (accounted : Accounted initial evm.stateDB evm.ebakusState)
    (supplyBound : ∑ a, initial.stateDB.balance a < 2 ^ 64 * precisionFactor) :
    (systemContract.claimedAmount evm owner).toNat =
      systemContract.vestedOf evm.ebakusState owner evm.time := by
  rw [systemContract.claimedAmount_toNat]
  apply Nat.mod_eq_of_lt
  have total := accounted.bounded supplyBound
  have vested := vestedOf_le_totalClaimable evm owner
  omega

theorem claimCmd_keeps {evm evm' : Evm} {owner : Address} {out : List UInt8}
    (accounted : Accounted initial evm.stateDB evm.ebakusState)
    (supplyBound : ∑ a, initial.stateDB.balance a < 2 ^ 64 * precisionFactor)
    (notContract : owner ≠ PrecompliledSystemContract)
    (claimed : systemContract.claimCmd evm owner = .ok (out, evm')) :
    Accounted initial evm'.stateDB evm'.ebakusState := by
  obtain ⟨canPay, rfl⟩ := systemContract.claimCmd_effects claimed
  set db' : EbakusState := { evm.ebakusState with
    claimable := evm.ebakusState.claimable.deleteAll (systemContract.claimedIds evm owner) }
  obtain ⟨vested, vestedEq⟩ : ∃ v, systemContract.vestedOf evm.ebakusState owner evm.time = v :=
    ⟨_, rfl⟩
  -- what is left to claim: the vested entries of the account are gone
  have remaining (b : Address) :
      claimableOf db' b + (if b = owner then vested else 0) = claimableOf evm.ebakusState b := by
    rw [← vestedEq, ← vested_share evm.ebakusState owner b evm.time]
    exact systemContract.sum_deleteAll_claimedIds evm owner
      fun id c => if id.owner = b then c.amount.toNat else 0
  have remainingTotal : totalClaimable db' + vested = totalClaimable evm.ebakusState := by
    rw [← vestedEq]
    exact systemContract.sum_deleteAll_claimedIds evm owner fun _ c => c.amount.toNat
  have paid : (systemContract.claimedAmount evm owner).toNat = vested := by
    rw [claimedAmount_toNat_of_accounted accounted supplyBound, vestedEq]
  -- the contract pays the vested amount's worth of wei, or nothing when it is zero
  have payout : ∀ stateDB' : StateDB,
      stateDB' = (if systemContract.claimedAmount evm owner = 0 then evm.stateDB
        else evm.stateDB.Transfer PrecompliledSystemContract owner
          ((systemContract.claimedAmount evm owner).toNat * precisionFactor)) →
      stateDB'.balance owner = evm.stateDB.balance owner + precisionFactor * vested ∧
      stateDB'.balance PrecompliledSystemContract + precisionFactor * vested =
        evm.stateDB.balance PrecompliledSystemContract ∧
      (∀ a, a ≠ owner → a ≠ PrecompliledSystemContract → stateDB'.balance a = evm.stateDB.balance a) ∧
      ∑ a, stateDB'.balance a = ∑ a, evm.stateDB.balance a := by
    intro stateDB' rebuilt
    rw [paid, Nat.mul_comm] at canPay
    split at rebuilt
    · rename_i nothing
      have none : vested = 0 := by rw [← paid, nothing, UInt64.toNat_zero]
      subst rebuilt
      simp [none]
    · subst rebuilt
      rw [paid, Nat.mul_comm]
      refine ⟨StateDB.Transfer_balance_recipient (Ne.symm notContract), ?_,
        fun a notOwner notTheContract => StateDB.Transfer_balance_other notTheContract notOwner,
        StateDB.sum_balance_Transfer canPay⟩
      rw [StateDB.Transfer_balance_sender (Ne.symm notContract)]
      omega
  obtain ⟨toOwner, fromContract, others, supply⟩ := payout _ rfl
  dsimp only
  refine accounted.step notContract ⟨?_, ?_, ?_, supply⟩ accounted.systemStake accounted.stakes
    accounted.witnessed
  · intro a notOwner notTheContract
    have share := remaining a
    simp only [notOwner, if_false, Nat.add_zero] at share
    exact ⟨others a notOwner notTheContract, by rw [← share]; rfl⟩
  · have share := remaining owner
    simp only [if_true] at share
    change _ + precisionFactor * (stakedOf evm.ebakusState owner + claimableOf db' owner) = _
    rw [toOwner, ← share, Nat.mul_add, Nat.mul_add, Nat.mul_add]
    omega
  · change _ + precisionFactor * (totalStaked evm.ebakusState + totalClaimable evm.ebakusState) =
      _ + precisionFactor * (totalStaked evm.ebakusState + totalClaimable db')
    rw [← fromContract, ← remainingTotal, Nat.mul_add, Nat.mul_add, Nat.mul_add]
    omega

theorem stakeCmd_keeps {evm evm' : Evm} {owner : Address} {amount : UInt64} {out : List UInt8}
    (accounted : Accounted initial evm.stateDB evm.ebakusState)
    (supplyBound : ∑ a, initial.stateDB.balance a < 2 ^ 64 * precisionFactor)
    (notContract : owner ≠ PrecompliledSystemContract)
    (staked : systemContract.stakeCmd evm owner amount = .ok (out, evm')) :
    Accounted initial evm'.stateDB evm'.ebakusState := by
  obtain ⟨covered, marked, table', stored, db₂, stakedId, stakedAmount, consumed, read, revoted,
    canPay, rfl⟩ := systemContract.stakeCmd_effects staked
  obtain ⟨idEq, amountEq, db₁, voters, unvoted, voted⟩ := systemContract.revoteStaked_effects revoted
  subst stakedId stakedAmount
  obtain ⟨paid, paidEq⟩ : ∃ p, (amount - covered).toNat = p := ⟨_, rfl⟩
  rw [paidEq] at canPay ⊢
  -- the snapshot `revoteStaked` starts from: claims consumed, system stake raised
  have startStaked : (setSystemStaked { evm.ebakusState with claimable := table'.deleteAll marked }
      (amount + stored.getD 0)).staked = evm.ebakusState.staked := rfl
  have startKeys : systemStaked (setSystemStaked
      { evm.ebakusState with claimable := table'.deleteAll marked } (amount + stored.getD 0)) =
      .ok (some (amount + stored.getD 0)) := systemStaked_setSystemStaked _ _
  have startStakes : StakesMatch (setSystemStaked
      { evm.ebakusState with claimable := table'.deleteAll marked } (amount + stored.getD 0))
      (stakedOf evm.ebakusState) := accounted.stakes
  have startWitnessed : Witnessed (setSystemStaked
      { evm.ebakusState with claimable := table'.deleteAll marked } (amount + stored.getD 0)) :=
    accounted.witnessed
  have startClaimable : (setSystemStaked
      { evm.ebakusState with claimable := table'.deleteAll marked } (amount + stored.getD 0)).claimable =
      table'.deleteAll marked := rfl
  clear revoted staked
  generalize setSystemStaked { evm.ebakusState with claimable := table'.deleteAll marked }
    (amount + stored.getD 0) = start at *
  rw [startStaked] at unvoted voted ⊢
  obtain ⟨old, oldEq⟩ : ∃ v, (evm.ebakusState.staked.get owner).getD 0 = v := ⟨_, rfl⟩
  rw [oldEq] at unvoted voted ⊢
  have own : old.toNat = stakedOf evm.ebakusState owner := by
    rw [← oldEq]
    cases present : evm.ebakusState.staked.get owner <;> simp [stakedOf, Table.valueAt, present]
  obtain ⟨stakes₁, witnessed₁, fresh₁⟩ := unvote_keeps startStakes startWitnessed own unvoted
  have effect₁ := unvote_spec unvoted
  obtain ⟨staked₁, claimable₁, -, keys₁⟩ := others_of_frame effect₁.frame
  obtain ⟨staked₂, claimable₂, -, keys₂⟩ := others_of_frame (vote_spec effect₁.distinct voted).frame
  let final := { db₂ with staked := db₂.staked.insertObj owner (old + amount) }
  show Accounted initial (evm.stateDB.Transfer owner PrecompliledSystemContract (paid * precisionFactor))
    final
  -- claims: `covered` of the amount came out of the caller's claimable entries
  obtain ⟨within, claims, claimsTotal⟩ := stake_claimables consumed
    (show final.claimable = table'.deleteAll marked by
      rw [← startClaimable, ← claimable₁, ← claimable₂])
  have withinNat := UInt64.le_iff_toNat_le.mp within
  have paidNat : paid = amount.toNat - covered.toNat := by
    rw [← paidEq, UInt64.toNat_sub_of_le _ _ within]
  have paidSplit : paid * precisionFactor + precisionFactor * covered.toNat =
      precisionFactor * amount.toNat := by
    rw [paidNat, Nat.mul_comm precisionFactor, Nat.mul_comm precisionFactor, ← Nat.add_mul,
      Nat.sub_add_cancel withinNat]
  have ownClaims := claims owner
  rw [if_pos rfl] at ownClaims
  -- balances: the rest of the amount moves from the caller to the contract
  have toContract : (evm.stateDB.Transfer owner PrecompliledSystemContract
      (paid * precisionFactor)).balance PrecompliledSystemContract =
      evm.stateDB.balance PrecompliledSystemContract + paid * precisionFactor :=
    StateDB.Transfer_balance_recipient notContract
  have fromOwner : (evm.stateDB.Transfer owner PrecompliledSystemContract
      (paid * precisionFactor)).balance owner = evm.stateDB.balance owner - paid * precisionFactor :=
    StateDB.Transfer_balance_sender notContract
  have supply : ∑ a, (evm.stateDB.Transfer owner PrecompliledSystemContract
      (paid * precisionFactor)).balance a = ∑ a, evm.stateDB.balance a :=
    StateDB.sum_balance_Transfer canPay
  -- with less than `2^64` tokens in existence, the new stake fits in 64 bits
  have noWrap : totalStaked evm.ebakusState + amount.toNat < 2 ^ 64 := by
    have single : (evm.stateDB.Transfer owner PrecompliledSystemContract
        (paid * precisionFactor)).balance PrecompliledSystemContract ≤
        ∑ a, (evm.stateDB.Transfer owner PrecompliledSystemContract
          (paid * precisionFactor)).balance a :=
      Finset.single_le_sum (fun _ _ => Nat.zero_le _) (Finset.mem_univ _)
    rw [supply, accounted.supply, toContract, accounted.contract] at single
    have claimBound := claimableOf_le_totalClaimable evm.ebakusState owner
    have scaled : (totalStaked evm.ebakusState + totalClaimable evm.ebakusState + paid) *
        precisionFactor < 2 ^ 64 * precisionFactor := by
      rw [Nat.add_mul, Nat.mul_comm _ precisionFactor]
      omega
    have below := Nat.lt_of_mul_lt_mul_right scaled
    omega
  have oldPlus : (old + amount).toNat = old.toNat + amount.toNat := by
    rw [UInt64.toNat_add]
    apply Nat.mod_eq_of_lt
    have := stakedOf_le_totalStaked evm.ebakusState owner
    omega
  obtain ⟨stakes', totalStaked'⟩ := @staked_insertObj evm.ebakusState final _ _
    (by rw [show final.staked = db₂.staked.insertObj owner (old + amount) from rfl, staked₂, staked₁,
      startStaked])
  rw [oldPlus, ← own] at totalStaked'
  -- witnesses: the caller's delegations move from its old stake to the new one
  have reweighed : StakesMatch db₁ (stakedOf final) := by
    apply stakes₁.reweigh
    intro id present
    rw [stakes' id.delegator, if_neg (fresh₁ id present)]
  have bounded : ∀ w, delegatedTo db₂.delegations (stakedOf final) w < 2 ^ 64 := by
    intro w
    have below := delegatedTo_le_totalStaked db₂.delegations final w
    omega
  obtain ⟨stakes₂, witnessed₂⟩ := vote_keeps reweighed witnessed₁ fresh₁ effect₁.distinct
    (by rw [stakes' owner, if_pos rfl, oldPlus]) voted bounded
  refine accounted.step notContract ⟨?_, ?_, ?_, supply⟩ ?_ stakes₂ witnessed₂
  · intro a notOwner notTheContract
    have share := claims a
    rw [if_neg notOwner, Nat.add_zero] at share
    refine ⟨StateDB.Transfer_balance_other notOwner notTheContract, ?_⟩
    rw [stakes' a, if_neg notOwner, share]
  · -- the caller pays `paid` and gives up `covered` of its claims for `amount` more stake
    rw [fromOwner, stakes' owner, if_pos rfl, oldPlus, ← own, ← ownClaims]
    simp only [Nat.mul_add]
    omega
  · have scaledStaked := congrArg (precisionFactor * ·) totalStaked'
    have scaledClaims := congrArg (precisionFactor * ·) claimsTotal
    simp only [Nat.mul_add] at scaledStaked scaledClaims ⊢
    rw [toContract]
    omega
  · -- the system stake went up by `amount`
    obtain ⟨value, readValue, valueTotal⟩ := accounted.systemStake
    rw [read, Except.ok.injEq] at readValue
    subst readValue
    refine ⟨some (amount + stored.getD 0), ?_, ?_⟩
    · show systemStaked final = _
      rw [← startKeys]
      simp only [systemStaked, final, keys₂, keys₁]
    · rw [Option.getD_some, UInt64.toNat_add, valueTotal, Nat.mod_eq_of_lt (by omega)]
      omega

theorem unstakeCmd_keeps {evm evm' : Evm} {owner : Address} {amount : UInt64} {out : List UInt8}
    (accounted : Accounted initial evm.stateDB evm.ebakusState)
    (supplyBound : ∑ a, initial.stateDB.balance a < 2 ^ 64 * precisionFactor)
    (notContract : owner ≠ PrecompliledSystemContract)
    (unstaked : systemContract.unstakeCmd evm owner amount = .ok (out, evm')) :
    Accounted initial evm'.stateDB evm'.ebakusState := by
  obtain ⟨oldStake, db₁, voters, db₂, bytes, systemStakedOut, counted, present, within, unvoted,
    voted, stakeBytes, decoded, belowSystem, rfl⟩ := systemContract.unstakeCmd_effects unstaked
  have own : oldStake.toNat = stakedOf evm.ebakusState owner := (stakedOf_of_get present).symm
  have withinNat := UInt64.le_iff_toNat_le.mp within
  -- the vesting entry is new: `countClaimables` went over every entry of the caller
  have fresh : evm.ebakusState.claimable.get
      (GetClaimableId owner (evm.time + unstakeVestingPeriod)) = none := by
    cases stored : evm.ebakusState.claimable.get
      (GetClaimableId owner (evm.time + unstakeVestingPeriod)) with
    | none => rfl
    | some c =>
        have selected : (GetClaimableId owner (evm.time + unstakeVestingPeriod), c) ∈
            selectLike evm.ebakusState.claimable ClaimableId.bytes owner.bytes :=
          mem_selectLike.mpr ⟨stored, by simp [GetClaimableId]⟩
        exact absurd rfl (countClaimables_fresh counted _ selected)
  obtain ⟨stakes₁, witnessed₁, fresh₁⟩ :=
    unvote_keeps (by exact accounted.stakes) (by exact accounted.witnessed) own unvoted
  have effect₁ := unvote_spec unvoted
  obtain ⟨staked₁, claimable₁, -, keys₁⟩ := others_of_frame effect₁.frame
  obtain ⟨staked₂, claimable₂, -, keys₂⟩ := others_of_frame (vote_spec effect₁.distinct voted).frame
  let final := setSystemStaked db₂ (systemStakedOut - amount)
  show Accounted initial evm.stateDB final
  obtain ⟨stakes', totalStaked'⟩ := @staked_reduce _ final _ _ _ present within
    (by rw [show final.staked = db₂.staked from rfl, staked₂, staked₁])
  obtain ⟨claims, totalClaims⟩ := @claimable_insertObj_fresh _ final _ _
    (by rw [show final.claimable = db₂.claimable from rfl, claimable₂, claimable₁]) fresh
  have claims' : ∀ b, claimableOf final b =
      claimableOf evm.ebakusState b + if owner = b then amount.toNat else 0 := claims
  have totalClaims' : totalClaimable final = totalClaimable evm.ebakusState + amount.toNat :=
    totalClaims
  have stakedBound := accounted.bounded supplyBound
  -- witnesses: the caller's delegations move from its old stake to what is left of it
  have reweighed : StakesMatch db₁ (stakedOf final) := by
    apply stakes₁.reweigh
    intro id present
    rw [stakes' id.delegator, if_neg (fresh₁ id present)]
  have left : (if amount = oldStake then 0 else oldStake - amount).toNat = stakedOf final owner := by
    rw [stakes' owner, if_pos rfl]
    split
    · next all => rw [all, Nat.sub_self, UInt64.toNat_zero]
    · exact UInt64.toNat_sub_of_le _ _ within
  have bounded : ∀ w, delegatedTo db₂.delegations (stakedOf final) w < 2 ^ 64 := by
    intro w
    have below := delegatedTo_le_totalStaked db₂.delegations final w
    omega
  obtain ⟨stakes₂, witnessed₂⟩ := vote_keeps reweighed witnessed₁ fresh₁ effect₁.distinct left
    voted bounded
  refine accounted.step notContract ⟨?_, ?_, ?_, rfl⟩ ?_ stakes₂ witnessed₂
  · intro a notOwner _
    refine ⟨rfl, ?_⟩
    rw [stakes' a, if_neg notOwner, claims' a, if_neg (Ne.symm notOwner), Nat.add_zero]
  · -- the unstaked amount becomes a claimable entry of the caller
    rw [stakes' owner, if_pos rfl, claims' owner, if_pos rfl, ← own]
    have moved : oldStake.toNat - amount.toNat + (claimableOf evm.ebakusState owner + amount.toNat) =
        oldStake.toNat + claimableOf evm.ebakusState owner := by omega
    rw [moved]
  · have same : totalStaked final + totalClaimable final =
        totalStaked evm.ebakusState + totalClaimable evm.ebakusState := by
      rw [totalClaims']
      omega
    rw [same]
  · -- the system stake went down by `amount`
    have keys : db₂.keys = evm.ebakusState.keys := by rw [keys₂, keys₁]
    have readOut : systemStaked evm.ebakusState = .ok (some systemStakedOut) := by
      simp only [systemStaked, ← keys, stakeBytes, decoded, Except.map]
    obtain ⟨value, readValue, valueTotal⟩ := accounted.systemStake
    rw [readOut, Except.ok.injEq] at readValue
    subst readValue
    refine ⟨some (systemStakedOut - amount), systemStaked_setSystemStaked _ _, ?_⟩
    rw [Option.getD_some, UInt64.toNat_sub_of_le _ _ belowSystem]
    rw [Option.getD_some] at valueTotal
    omega

end Commands

end Ebakus.Core.Vm
