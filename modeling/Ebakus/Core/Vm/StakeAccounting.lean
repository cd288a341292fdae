/-
# Stake accounting of the system contract

The quantities the system contract keeps in step: every account's staked
amount (its `Staked` row), its claimable amounts (its `Claimable` rows), the
stake delegated to each witness (the staked amounts of the accounts that
delegate to it), and the system-wide stake under `SystemStakeDBKey`.

The invariant that ties witnesses to delegations is `StakesMatch`: each
witness's `Stake` is what its delegators weigh. `unvote` with an account's
own weight removes its share everywhere and its delegations with it, and
`vote` adds a new weight back on the witnesses it lists; the lemmas below
carry `StakesMatch` through each of the two, so that every command that
re-weights an account can be proved with them.
-/

import Ebakus.Core.Vm.SystemSpec

namespace Ebakus.Core.Vm

open Ebakus.Lang Ebakus.Common Ebakus.Data

section Quantities

/-- The staked amount of an account: the amount of its `Staked` row, or zero. -/
def stakedOf (db : EbakusState) (a : Address) : Nat :=
  db.staked.valueAt (fun _ amount => amount.toNat) a

/-- The sum of `Amount` over all `Staked` rows. -/
def totalStaked (db : EbakusState) : Nat :=
  db.staked.sum fun _ amount => amount.toNat

/-- The stake delegated to `w`: the weights of the accounts that delegate to it. -/
def delegatedTo (delegations : Table DelegationId Unit) (weight : Address → Nat) (w : Address) : Nat :=
  delegations.sum fun id _ => if id.witness = w then weight id.delegator else 0

/-- The sum of an account's claimable amounts. -/
def claimableOf (db : EbakusState) (a : Address) : Nat :=
  db.claimable.sum fun id c => if id.owner = a then c.amount.toNat else 0

/-- The sum of `Amount` over all `Claimable` rows. -/
def totalClaimable (db : EbakusState) : Nat :=
  db.claimable.sum fun _ c => c.amount.toNat

theorem stakedOf_of_get {db : EbakusState} {a : Address} {amount : UInt64}
    (stored : db.staked.get a = some amount) : stakedOf db a = amount.toNat := by
  simp [stakedOf, Table.valueAt, stored]

theorem stakedOf_le_totalStaked (db : EbakusState) (a : Address) : stakedOf db a ≤ totalStaked db := by
  have single := Table.sum_valueAt_le db.staked (fun _ amount => amount.toNat) {a}
  simpa [stakedOf, totalStaked] using single

theorem claimableOf_le_totalClaimable (db : EbakusState) (a : Address) :
    claimableOf db a ≤ totalClaimable db := by
  unfold claimableOf totalClaimable
  rw [Table.sum_split db.claimable (fun id => id.owner = a) (fun _ c => c.amount.toNat)]
  exact Nat.le_add_right _ _

/-- The accounts delegating to one witness are distinct, so what they weigh
together is at most the total staked. -/
theorem delegatedTo_le_totalStaked (delegations : Table DelegationId Unit) (db : EbakusState)
    (w : Address) : delegatedTo delegations (stakedOf db) w ≤ totalStaked db := by
  classical
  let toWitness := delegations.keys.toFinset.filter fun id => id.witness = w
  have asFinset : delegatedTo delegations (stakedOf db) w =
      ∑ id ∈ toWitness, stakedOf db id.delegator := by
    unfold delegatedTo
    rw [Table.sum_eq_sum_valueAt delegations _ delegations.keys.toFinset
      (fun k member => List.mem_toFinset.mpr member), Finset.sum_filter]
    apply Finset.sum_congr rfl
    intro id member
    have present : (delegations.get id).isSome := by
      apply AList.lookup_isSome.mpr
      exact AList.mem_keys.mp (List.mem_toFinset.mp member)
    obtain ⟨⟨⟩, stored⟩ := Option.isSome_iff_exists.mp present
    simp [Table.valueAt, stored]
  have injective : Set.InjOn DelegationId.delegator toWitness := by
    intro first firstIn second secondIn same
    have firstWitness := (Finset.mem_filter.mp firstIn).2
    have secondWitness := (Finset.mem_filter.mp secondIn).2
    cases first
    cases second
    simp_all
  rw [asFinset, ← Finset.sum_image injective]
  exact Table.sum_valueAt_le db.staked _ _

end Quantities

section Delegations

/-- What the delegations of every account but `d` give to `w`. -/
def delegatedByOthers (delegations : Table DelegationId Unit) (weight : Address → Nat)
    (d w : Address) : Nat :=
  delegations.sum fun id _ => if id.delegator = d then 0 else if id.witness = w then weight id.delegator else 0

/-- What a witness is delegated splits into the share of one account and the
shares of all others. -/
theorem delegatedTo_split (delegations : Table DelegationId Unit) (weight : Address → Nat)
    (d w : Address) :
    delegatedTo delegations weight w = delegatedByOthers delegations weight d w +
      (if delegations.get ⟨d, w⟩ = none then 0 else weight d) := by
  unfold delegatedTo delegatedByOthers
  rw [Table.sum_split delegations (fun id => id.delegator = d)]
  have own : (delegations.sum fun id _ =>
        if id.delegator = d then (if id.witness = w then weight id.delegator else 0) else 0) =
      delegations.sum fun id _ => if id = ⟨d, w⟩ then weight d else 0 := by
    apply Table.sum_congr
    rintro ⟨delegator, witness⟩ _ _
    by_cases mine : delegator = d <;> by_cases toW : witness = w <;> simp [mine, toW]
  rw [own, Table.sum_single delegations ⟨d, w⟩ fun _ => weight d]
  cases delegations.get ⟨d, w⟩ <;> simp [Nat.add_comm]

/-- The shares of the other accounts depend only on their delegations and weights. -/
theorem delegatedByOthers_congr {delegations delegations' : Table DelegationId Unit}
    {weight weight' : Address → Nat} {d : Address}
    (sameRows : ∀ id, id.delegator ≠ d → delegations.get id = delegations'.get id)
    (sameWeights : ∀ a, a ≠ d → weight a = weight' a) (w : Address) :
    delegatedByOthers delegations weight d w = delegatedByOthers delegations' weight' d w := by
  unfold delegatedByOthers
  rw [Table.sum_eq_of_get_eq_on (fun id => id.delegator ≠ d) sameRows (by
    intro id _ mine
    simp [not_not.mp mine])]
  apply Table.sum_congr
  intro id _ _
  by_cases mine : id.delegator = d
  · simp [mine]
  · simp [mine, sameWeights id.delegator mine]

/-- Every witness's stake is what its delegators weigh. -/
def StakesMatch (db : EbakusState) (weight : Address → Nat) : Prop :=
  ∀ w r, db.witnesses.get w = some r → r.stake.toNat = delegatedTo db.delegations weight w

/-- Every delegation names a witness that has a row. -/
def Witnessed (db : EbakusState) : Prop :=
  ∀ id, db.delegations.get id ≠ none → db.witnesses.get id.witness ≠ none

/-- No delegation of the account `d` is left. -/
def NoDelegationsOf (db : EbakusState) (d : Address) : Prop :=
  ∀ id, db.delegations.get id ≠ none → id.delegator ≠ d

/-- Weights matter only for accounts that delegate. -/
theorem StakesMatch.reweigh {db : EbakusState} {weight weight' : Address → Nat}
    (matched : StakesMatch db weight)
    (sameWeights : ∀ id, db.delegations.get id ≠ none → weight id.delegator = weight' id.delegator) :
    StakesMatch db weight' := by
  intro w r stored
  rw [matched w r stored]
  apply Table.sum_congr
  intro id u present
  have delegates : db.delegations.get id ≠ none := by simp [present]
  simp [sameWeights id delegates]

/-- `unvote` with an account's own weight takes its share off every witness
it delegated to and removes its delegations; the stakes still match. -/
theorem unvote_keeps {db db' : EbakusState} {weight : Address → Nat} {d : Address}
    {amount : UInt64} {addresses : List Address} (matched : StakesMatch db weight)
    (witnessed : Witnessed db) (own : amount.toNat = weight d)
    (unvoted : unvote db d amount = .ok (db', addresses)) :
    StakesMatch db' weight ∧ Witnessed db' ∧ NoDelegationsOf db' d := by
  have effect := unvote_spec unvoted
  have others : ∀ id, id.delegator ≠ d → db.delegations.get id = db'.delegations.get id := by
    intro id notMine
    simp [effect.delegations id, notMine]
  refine ⟨?_, ?_, ?_⟩
  · intro w r' stored'
    rw [effect.witnesses w] at stored'
    obtain ⟨r, stored, rfl⟩ := Option.map_eq_some_iff.mp stored'
    have before := matched w r stored
    rw [delegatedTo_split _ _ d w] at before ⊢
    rw [← delegatedByOthers_congr others (fun _ _ => rfl) w]
    have gone : db'.delegations.get ⟨d, w⟩ = none := by simp [effect.delegations]
    by_cases visited : w ∈ addresses
    · obtain ⟨found, foundStored, enough⟩ := effect.found w visited
      rw [stored, Option.some.injEq] at foundStored
      subst foundStored
      have delegated : db.delegations.get ⟨d, w⟩ ≠ none := by
        simp [(effect.delegated w).mp visited]
      simp only [visited, if_true, gone, delegated, if_false] at before ⊢
      rw [UInt64.toNat_sub_of_le _ _ enough]
      omega
    · have notDelegated : db.delegations.get ⟨d, w⟩ = none := by
        cases present : db.delegations.get ⟨d, w⟩ with
        | none => rfl
        | some u => exact absurd ((effect.delegated w).mpr present) visited
      simp only [visited, if_false, gone, notDelegated, if_true] at before ⊢
      exact before
  · intro id present
    have notMine : id.delegator ≠ d := by
      intro mine
      simp [effect.delegations id, mine] at present
    rw [← others id notMine] at present
    rw [effect.witnesses]
    simpa using witnessed id present
  · intro id present mine
    simp [effect.delegations id, mine] at present

/-- `vote` of a weight for an account without delegations adds its share to
every listed witness; the stakes still match as long as no witness's stake
reaches `2^64`. -/
theorem vote_keeps {db db' : EbakusState} {weight : Address → Nat} {d : Address}
    {amount : UInt64} {addresses : List Address} (matched : StakesMatch db weight)
    (witnessed : Witnessed db) (fresh : NoDelegationsOf db d) (distinct : addresses.Nodup)
    (own : amount.toNat = weight d)
    (voted : vote db d addresses amount = .ok db')
    (bounded : ∀ w, delegatedTo db'.delegations weight w < 2 ^ 64) :
    StakesMatch db' weight ∧ Witnessed db' := by
  have effect := vote_spec distinct voted
  have others : ∀ id, id.delegator ≠ d → db.delegations.get id = db'.delegations.get id := by
    intro id notMine
    simp [effect.delegations id, notMine]
  refine ⟨?_, ?_⟩
  · intro w r' stored'
    rw [effect.witnesses w] at stored'
    obtain ⟨r, stored, rfl⟩ := Option.map_eq_some_iff.mp stored'
    have before := matched w r stored
    have bound := bounded w
    rw [delegatedTo_split _ _ d w] at before bound ⊢
    rw [← delegatedByOthers_congr others (fun _ _ => rfl) w] at bound ⊢
    have absent : db.delegations.get ⟨d, w⟩ = none := by
      cases present : db.delegations.get ⟨d, w⟩ with
      | none => rfl
      | some u => exact absurd rfl (fresh ⟨d, w⟩ (by simp [present]))
    simp only [absent, if_true, Nat.add_zero] at before
    by_cases listed : w ∈ addresses
    · have added : db'.delegations.get ⟨d, w⟩ ≠ none := by simp [effect.delegations, listed]
      simp only [listed, if_true, added, if_false] at bound ⊢
      rw [UInt64.toNat_add, before, own]
      exact Nat.mod_eq_of_lt bound
    · have notAdded : db'.delegations.get ⟨d, w⟩ = none := by
        simp [effect.delegations, listed, absent]
      simp only [listed, if_false, notAdded, if_true, Nat.add_zero]
      exact before
  · intro id present
    rw [effect.delegations id] at present
    rw [effect.witnesses]
    by_cases new : id.delegator = d ∧ id.witness ∈ addresses
    · simpa using effect.found id.witness new.2
    · simp only [new, if_false] at present
      simpa using witnessed id present

end Delegations

end Ebakus.Core.Vm
