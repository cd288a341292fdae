/-
# What the system contract's helpers do

One statement per helper of the system contract, each saying everything a
successful call did, so that the proofs about the commands never unfold a
helper. The Id-prefix selections pick exactly one account's rows; `vote` and
`unvote` move one amount on the witnesses they visit and rewrite the caller's
delegations; the claimable loops cover or collect the sums of the rows they
visit.
-/

import Ebakus.Core.Vm.SystemContract

namespace Ebakus.Core.Vm

open Ebakus.Lang Ebakus.Common Ebakus.Data

section Selection

/-- An Id that starts with an address's bytes belongs to that address. -/
theorem isPrefixOf_bytes_append (a b : Address) (rest : List UInt8) :
    a.bytes.isPrefixOf (b.bytes ++ rest) = decide (b = a) := by
  by_cases same : b = a
  · subst same
    simp [List.isPrefixOf_iff_prefix.mpr (List.prefix_append b.bytes rest)]
  · cases selected : a.bytes.isPrefixOf (b.bytes ++ rest) with
    | false => simp [same]
    | true =>
        have equal := Address.eq_of_bytes_prefix (List.isPrefixOf_iff_prefix.mp selected)
        exact absurd equal.symm same

@[simp]
theorem isPrefixOf_Address_bytes (a b : Address) : a.bytes.isPrefixOf b.bytes = decide (b = a) := by
  simpa using isPrefixOf_bytes_append a b []

@[simp]
theorem isPrefixOf_DelegationId_bytes (a : Address) (id : DelegationId) :
    a.bytes.isPrefixOf id.bytes = decide (id.delegator = a) :=
  isPrefixOf_bytes_append a id.delegator id.witness.bytes

@[simp]
theorem isPrefixOf_ClaimableId_bytes (a : Address) (id : ClaimableId) :
    a.bytes.isPrefixOf id.bytes = decide (id.owner = a) :=
  isPrefixOf_bytes_append a id.owner (putLittleEndianUint64 id.timestamp)

theorem mem_selectLike {κ ρ : Type} [DecidableEq κ] {t : Table κ ρ} {bytesOf : κ → List UInt8}
    {p : List UInt8} {row : κ × ρ} :
    row ∈ selectLike t bytesOf p ↔ t.get row.1 = some row.2 ∧ p.isPrefixOf (bytesOf row.1) = true :=
  Table.mem_select

/-- A prefix that selects the Id `k` alone finds the row of `k`. -/
theorem firstLike_eq_of_selects {κ ρ : Type} [DecidableEq κ] {t : Table κ ρ}
    {bytesOf : κ → List UInt8} {p : List UInt8} {k : κ}
    (selects : ∀ key, p.isPrefixOf (bytesOf key) = decide (key = k)) :
    firstLike t bytesOf p = (t.get k).map (k, ·) := by
  have selected : ∀ row ∈ selectLike t bytesOf p, row.1 = k ∧ t.get k = some row.2 := by
    intro row member
    obtain ⟨stored, chosen⟩ := mem_selectLike.mp member
    rw [selects, decide_eq_true_iff] at chosen
    exact ⟨chosen, chosen ▸ stored⟩
  unfold firstLike
  cases rows : selectLike t bytesOf p with
  | nil =>
      cases found : t.get k with
      | none => rfl
      | some r =>
          have member : (k, r) ∈ selectLike t bytesOf p :=
            mem_selectLike.mpr ⟨found, by simp [selects]⟩
          simp [rows] at member
  | cons first rest =>
      obtain ⟨key, stored⟩ := selected first (by simp [rows])
      obtain ⟨k', r⟩ := first
      simp only at key stored
      subst key
      simp [stored]

theorem firstLike_Address {ρ : Type} (t : Table Address ρ) (a : Address) :
    firstLike t Address.bytes a.bytes = (t.get a).map (a, ·) :=
  firstLike_eq_of_selects (isPrefixOf_Address_bytes a)

theorem GetStaked_eq (db : EbakusState) (owner : Address) :
    GetStaked db owner = (db.staked.get owner).map (owner, ·) :=
  firstLike_Address db.staked owner

@[simp]
theorem DelegationId.Content_eq (id : DelegationId) : id.Content = (id.delegator, id.witness) := by
  have length : id.delegator.bytes.length = AddressLength := id.delegator.length_eq
  simp only [DelegationId.Content, DelegationId.bytes]
  rw [← length, List.take_left, List.drop_left, Address.BytesToAddress_bytes,
    Address.BytesToAddress_bytes]

/-- A snapshot rebuilt with new witnesses and delegations keeps every other table. -/
theorem others_of_frame {db db' : EbakusState} {witnesses : Table Address Witness}
    {delegations : Table DelegationId Unit}
    (frame : db' = { db with witnesses := witnesses, delegations := delegations }) :
    db'.staked = db.staked ∧ db'.claimable = db.claimable ∧ db'.contractAbi = db.contractAbi ∧
      db'.keys = db.keys := by
  subst frame
  exact ⟨rfl, rfl, rfl, rfl⟩

theorem mem_selectLike_delegations {db : EbakusState} {delegator : Address}
    {row : DelegationId × Unit} :
    row ∈ selectLike db.delegations DelegationId.bytes delegator.bytes ↔
      db.delegations.get row.1 = some () ∧ row.1.delegator = delegator := by
  simp [mem_selectLike]

/-- The witnesses an account delegates to, as `unvote` visits them. -/
def delegatedWitnesses (db : EbakusState) (delegator : Address) : List Address :=
  (selectLike db.delegations DelegationId.bytes delegator.bytes).map (·.1.witness)

theorem mem_delegatedWitnesses {db : EbakusState} {delegator w : Address} :
    w ∈ delegatedWitnesses db delegator ↔ db.delegations.get ⟨delegator, w⟩ = some () := by
  simp only [delegatedWitnesses, List.mem_map, mem_selectLike_delegations]
  constructor
  · rintro ⟨⟨⟨from_, witness⟩, ⟨⟩⟩, ⟨stored, rfl⟩, rfl⟩
    exact stored
  · intro stored
    exact ⟨(⟨delegator, w⟩, ()), ⟨stored, rfl⟩, rfl⟩

theorem nodup_delegatedWitnesses (db : EbakusState) (delegator : Address) :
    (delegatedWitnesses db delegator).Nodup := by
  have keys := Table.nodup_keys_select db.delegations
    fun id => delegator.bytes.isPrefixOf id.bytes
  have split : (fun row : DelegationId × Unit => row.1.witness) = DelegationId.witness ∘ Prod.fst :=
    rfl
  unfold delegatedWitnesses
  rw [split, ← List.map_map]
  apply keys.map_on
  intro first firstSelected second secondSelected sameWitness
  obtain ⟨⟨firstId, _⟩, firstRow, rfl⟩ := List.mem_map.mp firstSelected
  obtain ⟨⟨secondId, _⟩, secondRow, rfl⟩ := List.mem_map.mp secondSelected
  have firstOwn := (mem_selectLike_delegations.mp firstRow).2
  have secondOwn := (mem_selectLike_delegations.mp secondRow).2
  cases firstId
  cases secondId
  simp_all

end Selection

section VoteUnvote

/-- Everything a successful `vote` did: every listed address was a witness,
each gained `amount` of stake and a delegation from the voter, and nothing
else was written. -/
structure Voted (db db' : EbakusState) (delegator : Address) (addresses : List Address)
    (amount : UInt64) : Prop where
  found : ∀ a ∈ addresses, db.witnesses.get a ≠ none
  witnesses : ∀ w, db'.witnesses.get w = (db.witnesses.get w).map fun r =>
    if w ∈ addresses then { r with stake := r.stake + amount } else r
  delegations : ∀ id, db'.delegations.get id =
    if id.delegator = delegator ∧ id.witness ∈ addresses then some () else db.delegations.get id
  frame : db' = { db with witnesses := db'.witnesses, delegations := db'.delegations }

theorem vote_spec {db db' : EbakusState} {delegator : Address} {addresses : List Address}
    {amount : UInt64} (distinct : addresses.Nodup)
    (voted : vote db delegator addresses amount = .ok db') :
    Voted db db' delegator addresses amount := by
  induction addresses generalizing db with
  | nil =>
      cases voted
      exact ⟨by simp, by simp, by simp, rfl⟩
  | cons address rest ih =>
      obtain ⟨fresh, restDistinct⟩ := List.nodup_cons.mp distinct
      simp only [vote, firstLike_Address] at voted
      cases found : db.witnesses.get address with
      | none => simp [found, fail] at voted
      | some r =>
          simp only [found, Option.map_some] at voted
          have later := ih restDistinct voted
          refine ⟨?_, ?_, ?_, ?_⟩
          · intro a member
            rcases List.mem_cons.mp member with here | there
            · simp [here, found]
            · have stillFound := later.found a there
              rwa [Table.get_insertObj_ne (ne_of_mem_of_not_mem there fresh)] at stillFound
          · intro w
            rw [later.witnesses w]
            by_cases here : w = address
            · subst here
              simp [found, fresh]
            · simp [Table.get_insertObj_ne here, here]
          · intro id
            rw [later.delegations id, Table.get_insertObj]
            by_cases here : id = AddressesToDelegationId delegator address
            · subst here
              simp [AddressesToDelegationId]
            · have notHere : ¬(id.delegator = delegator ∧ id.witness = address) := by
                rintro ⟨rfl, rfl⟩
                exact here rfl
              by_cases mine : id.delegator = delegator <;> simp_all
          · rw [later.frame]

/-- Everything a successful `unvoteLoop` did: each visited witness existed with
at least `amount` of stake and lost `amount`; the visited addresses were
collected in order. -/
structure UnvoteLooped (db db' : EbakusState) (visited : List Address) (amount : UInt64) : Prop where
  found : ∀ w ∈ visited, ∃ r, db.witnesses.get w = some r ∧ amount ≤ r.stake
  witnesses : ∀ w, db'.witnesses.get w = (db.witnesses.get w).map fun r =>
    if w ∈ visited then { r with stake := r.stake - amount } else r
  frame : db' = { db with witnesses := db'.witnesses }

theorem unvoteLoop_spec {amount : UInt64} {rows : List (DelegationId × Unit)} {db db' : EbakusState}
    {collected collected' : List Address} (distinct : (rows.map (·.1.witness)).Nodup)
    (looped : unvoteLoop amount rows db collected = .ok (db', collected')) :
    collected' = collected ++ rows.map (·.1.witness) ∧
      UnvoteLooped db db' (rows.map (·.1.witness)) amount := by
  induction rows generalizing db collected with
  | nil =>
      cases looped
      exact ⟨by simp, by simp, by simp, rfl⟩
  | cons row rest ih =>
      obtain ⟨⟨delegator, witness⟩, ⟨⟩⟩ := row
      simp only [List.map_cons, List.nodup_cons] at distinct
      obtain ⟨fresh, restDistinct⟩ := distinct
      simp only [unvoteLoop, DelegationId.Content_eq, firstLike_Address] at looped
      cases found : db.witnesses.get witness with
      | none => simp [found, fail] at looped
      | some r =>
          simp only [found, Option.map_some] at looped
          split at looped
          · cases looped
          · rename_i enough
            obtain ⟨order, later⟩ := ih restDistinct looped
            refine ⟨by simp [order], ⟨?_, ?_, ?_⟩⟩
            · intro w member
              rcases List.mem_cons.mp member with here | there
              · subst here
                exact ⟨r, found, UInt64.not_lt.mp enough⟩
              · obtain ⟨stored, stillFound, covers⟩ := later.found w there
                rw [Table.get_insertObj_ne (ne_of_mem_of_not_mem there fresh)] at stillFound
                exact ⟨stored, stillFound, covers⟩
            · intro w
              rw [later.witnesses w]
              by_cases here : w = witness
              · subst here
                simp [found, fresh]
              · simp only [Table.get_insertObj_ne here, List.map_cons, List.mem_cons, here, false_or]
            · rw [later.frame]

/-- Everything a successful `unvote` did: it returned the witnesses the
account delegated to, each without repeats, took `amount` off each of them,
and deleted all of the account's delegations. -/
structure Unvoted (db db' : EbakusState) (delegator : Address) (addresses : List Address)
    (amount : UInt64) : Prop where
  distinct : addresses.Nodup
  delegated : ∀ w, w ∈ addresses ↔ db.delegations.get ⟨delegator, w⟩ = some ()
  found : ∀ w ∈ addresses, ∃ r, db.witnesses.get w = some r ∧ amount ≤ r.stake
  witnesses : ∀ w, db'.witnesses.get w = (db.witnesses.get w).map fun r =>
    if w ∈ addresses then { r with stake := r.stake - amount } else r
  delegations : ∀ id, db'.delegations.get id =
    if id.delegator = delegator then none else db.delegations.get id
  frame : db' = { db with witnesses := db'.witnesses, delegations := db'.delegations }

theorem unvote_spec {db db' : EbakusState} {delegator : Address} {amount : UInt64}
    {addresses : List Address} (unvoted : unvote db delegator amount = .ok (db', addresses)) :
    Unvoted db db' delegator addresses amount := by
  obtain ⟨⟨looped, visited⟩, loop, finish⟩ := bind_eq_ok unvoted
  cases finish
  obtain ⟨order, effect⟩ := unvoteLoop_spec (nodup_delegatedWitnesses db delegator) loop
  simp only [List.nil_append] at order
  subst order
  have frame := effect.frame
  refine ⟨nodup_delegatedWitnesses db delegator, fun w => mem_delegatedWitnesses,
    effect.found, effect.witnesses, ?_, ?_⟩
  · intro id
    rw [Table.get_deleteAll, frame]
    by_cases mine : id.delegator = delegator
    · simp only [mine, if_true, ite_eq_left_iff]
      intro notSelected
      cases stored : db.delegations.get id with
      | none => rfl
      | some u =>
          exact absurd (List.mem_map.mpr ⟨(id, u), mem_selectLike_delegations.mpr ⟨stored, mine⟩, rfl⟩)
            notSelected
    · have notSelected : id ∉ (selectLike db.delegations DelegationId.bytes delegator.bytes).map Prod.fst := by
        intro member
        obtain ⟨row, selected, rfl⟩ := List.mem_map.mp member
        exact mine (mem_selectLike_delegations.mp selected).2
      simp [mine, notSelected]
  · rw [frame]

/-- `unique.go` keeps no repeats and nothing it has already used. -/
theorem unique_go_spec (used addresses : List Address) :
    (unique.go used addresses).Nodup ∧ ∀ a ∈ unique.go used addresses, a ∉ used := by
  induction addresses generalizing used with
  | nil => simp [unique.go]
  | cons entry rest ih =>
      by_cases seen : entry ∈ used
      · simpa [unique.go, seen] using ih used
      · obtain ⟨distinct, fresh⟩ := ih (used ++ [entry])
        simp only [unique.go, seen, if_false]
        refine ⟨List.nodup_cons.mpr ⟨fun member => fresh entry member (by simp), distinct⟩, ?_⟩
        intro a member
        rcases List.mem_cons.mp member with here | later
        · exact here ▸ seen
        · have notUsed := fresh a later
          simp only [List.mem_append, List.mem_singleton, not_or] at notUsed
          exact notUsed.1

theorem nodup_unique (addresses : List Address) : (unique addresses).Nodup :=
  (unique_go_spec [] addresses).1

end VoteUnvote

section Claimables

/-- The claimable amounts still owed, weighted per Id, leaving out the Ids
already marked for deletion. -/
def owed (weight : ClaimableId → Nat) (table : Table ClaimableId Claimable)
    (toBeDeleted : List ClaimableId) : Nat :=
  table.sum fun id c => if id ∈ toBeDeleted then 0 else weight id * c.amount.toNat

/-- What is owed is what stays after the marked rows are deleted. -/
theorem owed_eq_sum_deleteAll (weight : ClaimableId → Nat) (table : Table ClaimableId Claimable)
    (toBeDeleted : List ClaimableId) :
    owed weight table toBeDeleted =
      (table.deleteAll toBeDeleted).sum fun id c => weight id * c.amount.toNat :=
  (Table.sum_deleteAll table toBeDeleted _).symm

/-- Marking a stored row for deletion takes its amount off what is owed. -/
theorem owed_mark (weight : ClaimableId → Nat) {table : Table ClaimableId Claimable}
    {toBeDeleted : List ClaimableId} {id : ClaimableId} {c : Claimable}
    (stored : table.get id = some c) (unmarked : id ∉ toBeDeleted) :
    owed weight table toBeDeleted = owed weight table (toBeDeleted ++ [id]) + weight id * c.amount.toNat := by
  unfold owed
  rw [Table.sum_eq_deleteObj_add stored, Table.sum_eq_deleteObj_add stored]
  have others : ∀ k r, (table.deleteObj id).get k = some r →
      (if k ∈ toBeDeleted then 0 else weight k * r.amount.toNat) =
        (if k ∈ toBeDeleted ++ [id] then 0 else weight k * r.amount.toNat) := by
    intro k r remaining
    have differ : k ≠ id := by
      rintro rfl
      simp at remaining
    simp [differ]
  rw [Table.sum_congr others]
  simp [unmarked]

/-- Lowering the amount of a stored, unmarked row lowers what is owed by the
difference. -/
theorem owed_lower (weight : ClaimableId → Nat) {table : Table ClaimableId Claimable}
    {toBeDeleted : List ClaimableId} {id : ClaimableId} {c c' : Claimable}
    (stored : table.get id = some c) (unmarked : id ∉ toBeDeleted) (lower : c'.amount ≤ c.amount) :
    owed weight (table.insertObj id c') toBeDeleted + weight id * (c.amount.toNat - c'.amount.toNat) =
      owed weight table toBeDeleted := by
  unfold owed
  rw [Table.sum_insertObj, Table.sum_eq_deleteObj_add stored]
  have lowerNat : c'.amount.toNat ≤ c.amount.toNat := UInt64.le_iff_toNat_le.mp lower
  have scaled : weight id * c'.amount.toNat ≤ weight id * c.amount.toNat :=
    Nat.mul_le_mul_left _ lowerNat
  simp only [unmarked, if_false, Nat.mul_sub]
  omega

/-- What the consuming loop of `stakeCmd` covers is taken off what is owed, on
any weight that is the same on all the rows it visits. -/
theorem consumeClaimables_spec {amount : UInt64} (weight : ClaimableId → Nat) (c : Nat)
    {rows : List (ClaimableId × Claimable)} {claimableAmount covered : UInt64}
    {toBeDeleted marked : List ClaimableId} {table table' : Table ClaimableId Claimable}
    (distinct : (rows.map Prod.fst).Nodup)
    (stored : ∀ row ∈ rows, table.get row.1 = some row.2 ∧ row.1 ∉ toBeDeleted)
    (constant : ∀ row ∈ rows, weight row.1 = c) (within : claimableAmount ≤ amount)
    (consumed : consumeClaimables amount rows claimableAmount toBeDeleted table =
      (covered, marked, table')) :
    covered ≤ amount ∧
      owed weight table' marked + c * covered.toNat =
        owed weight table toBeDeleted + c * claimableAmount.toNat := by
  induction rows generalizing claimableAmount toBeDeleted table with
  | nil =>
      simp only [consumeClaimables, Prod.mk.injEq] at consumed
      obtain ⟨rfl, rfl, rfl⟩ := consumed
      exact ⟨within, rfl⟩
  | cons row rest ih =>
      obtain ⟨id, claimable⟩ := row
      simp only [List.map_cons, List.nodup_cons] at distinct
      obtain ⟨fresh, restDistinct⟩ := distinct
      obtain ⟨here, unmarked⟩ : table.get id = some claimable ∧ id ∉ toBeDeleted :=
        stored (id, claimable) List.mem_cons_self
      have weightHere : weight id = c := constant (id, claimable) List.mem_cons_self
      have restConstant : ∀ row ∈ rest, weight row.1 = c :=
        fun row member => constant row (List.mem_cons_of_mem _ member)
      have restFresh : ∀ row ∈ rest, row.1 ≠ id := by
        intro row member same
        exact fresh (same ▸ List.mem_map_of_mem member)
      have withinNat := UInt64.le_iff_toNat_le.mp within
      have need : (amount - claimableAmount).toNat = amount.toNat - claimableAmount.toNat :=
        UInt64.toNat_sub_of_le _ _ within
      have amountBound := UInt64.toNat_lt amount
      by_cases whole : claimable.amount ≤ amount - claimableAmount
      · -- the entry is consumed whole and marked for deletion
        have wholeNat := UInt64.le_iff_toNat_le.mp whole
        have sum : (claimableAmount + claimable.amount).toNat =
            claimableAmount.toNat + claimable.amount.toNat := by
          rw [UInt64.toNat_add]
          omega
        have within' : claimableAmount + claimable.amount ≤ amount := by
          rw [UInt64.le_iff_toNat_le, sum]
          omega
        have step := owed_mark weight here unmarked
        have restStored : ∀ row ∈ rest,
            table.get row.1 = some row.2 ∧ row.1 ∉ toBeDeleted ++ [id] := by
          intro row member
          obtain ⟨rowStored, rowUnmarked⟩ := stored row (List.mem_cons_of_mem _ member)
          simp [rowStored, rowUnmarked, restFresh row member]
        simp only [consumeClaimables, whole, if_true] at consumed
        split at consumed
        · simp only [Prod.mk.injEq] at consumed
          obtain ⟨rfl, rfl, rfl⟩ := consumed
          refine ⟨within', ?_⟩
          rw [sum, Nat.mul_add, step, weightHere]
          omega
        · obtain ⟨bound, equation⟩ := ih restDistinct restStored restConstant within' consumed
          refine ⟨bound, ?_⟩
          rw [equation, sum, Nat.mul_add, step, weightHere]
          omega
      · -- the entry covers the rest of the amount and is rewritten with what is left
        have exceeds : amount - claimableAmount < claimable.amount := UInt64.not_le.mp whole
        have partNat : amount.toNat - claimableAmount.toNat < claimable.amount.toNat := by
          rw [← need]
          exact UInt64.lt_iff_toNat_lt.mp exceeds
        have full : claimableAmount + (amount - claimableAmount) = amount := by
          rw [← UInt64.toNat_inj, UInt64.toNat_add, need]
          omega
        have left : (claimable.amount - (amount - claimableAmount)).toNat =
            claimable.amount.toNat - (amount.toNat - claimableAmount.toNat) := by
          rw [UInt64.toNat_sub_of_le _ _ (UInt64.le_of_lt exceeds), need]
        have lower : claimable.amount - (amount - claimableAmount) ≤ claimable.amount := by
          rw [UInt64.le_iff_toNat_le, left]
          omega
        have step : owed weight (table.insertObj id
              { claimable with amount := claimable.amount - (amount - claimableAmount) }) toBeDeleted +
            weight id * (claimable.amount.toNat -
              (claimable.amount - (amount - claimableAmount)).toNat) =
            owed weight table toBeDeleted :=
          owed_lower weight here unmarked lower
        simp only [consumeClaimables, whole, if_false, full, if_true, Prod.mk.injEq] at consumed
        obtain ⟨rfl, rfl, rfl⟩ := consumed
        refine ⟨UInt64.le_refl _, ?_⟩
        have split : c * (claimable.amount.toNat - (claimable.amount - (amount - claimableAmount)).toNat) +
            c * claimableAmount.toNat = c * amount.toNat := by
          rw [← Nat.mul_add, left]
          congr 1
          omega
        rw [weightHere] at step
        omega

/-- The collecting loop of `claimCmd` adds up, modulo `2^64`, the amounts of
the rows that have vested. -/
theorem collectClaimables_fst (time : UInt64) (rows : List (ClaimableId × Claimable))
    (claimableAmount : UInt64) (toBeDeleted : List ClaimableId) :
    (systemContract.collectClaimables time rows claimableAmount toBeDeleted).1.toNat =
      (claimableAmount.toNat +
        (rows.map fun row => if row.2.timestamp ≤ time then row.2.amount.toNat else 0).sum) % 2 ^ 64 := by
  induction rows generalizing claimableAmount toBeDeleted with
  | nil => simp [systemContract.collectClaimables, Nat.mod_eq_of_lt (UInt64.toNat_lt _)]
  | cons row rest ih =>
      by_cases vested : row.2.timestamp ≤ time
      · simp only [systemContract.collectClaimables, vested, if_true, ih, UInt64.toNat_add,
          List.map_cons, List.sum_cons]
        omega
      · simp [systemContract.collectClaimables, vested, ih]

/-- The collecting loop of `claimCmd` marks exactly the rows that have vested. -/
theorem collectClaimables_snd (time : UInt64) (rows : List (ClaimableId × Claimable))
    (claimableAmount : UInt64) (toBeDeleted : List ClaimableId) :
    (systemContract.collectClaimables time rows claimableAmount toBeDeleted).2 =
      toBeDeleted ++ (rows.filter fun row => row.2.timestamp ≤ time).map Prod.fst := by
  induction rows generalizing claimableAmount toBeDeleted with
  | nil => simp [systemContract.collectClaimables]
  | cons row rest ih =>
      by_cases vested : row.2.timestamp ≤ time
      · simp [systemContract.collectClaimables, vested, ih]
      · simp [systemContract.collectClaimables, vested, ih]

/-- The counting loop of `unstakeCmd` passes only if no visited row has the Id
of the new entry. -/
theorem countClaimables_fresh {newClaimableEntryId : ClaimableId}
    {rows : List (ClaimableId × Claimable)} {count : Nat}
    (counted : systemContract.countClaimables newClaimableEntryId rows count = .ok ()) :
    ∀ row ∈ rows, row.1 ≠ newClaimableEntryId := by
  induction rows generalizing count with
  | nil => simp
  | cons row rest ih =>
      simp only [systemContract.countClaimables] at counted
      split at counted
      · cases counted
      · rename_i differ
        split at counted
        · cases counted
        · intro visited member
          rcases List.mem_cons.mp member with here | there
          · subst here
            exact Ne.symm differ
          · exact ih counted visited there

theorem mem_claimablesDescending {db : EbakusState} {owner : Address}
    {row : ClaimableId × Claimable} :
    row ∈ claimablesDescending db owner ↔ db.claimable.get row.1 = some row.2 ∧ row.1.owner = owner := by
  simp [claimablesDescending, List.mem_insertionSort, mem_selectLike]

theorem nodup_claimablesDescending (db : EbakusState) (owner : Address) :
    ((claimablesDescending db owner).map Prod.fst).Nodup := by
  have sorted := ((List.perm_insertionSort (fun first second : ClaimableId × Claimable =>
      second.1.bytes ≤ first.1.bytes)
    (selectLike db.claimable ClaimableId.bytes owner.bytes)).map Prod.fst)
  exact sorted.nodup_iff.mpr (Table.nodup_keys_select _ _)

end Claimables

end Ebakus.Core.Vm
