/-
# The block-candidate set of the miner (`core/types/transaction.go`)

`TransactionsByVirtualDifficultyAndNonce` hands the miner the pending
transactions one at a time. The head transaction of each account sits in a
heap ordered by virtual difficulty; `Shift` replaces the head it answered with
the next transaction of the same account, and `Pop` drops the account. So
whatever order the heap keeps, what an account has still to give is its head
followed by the rest of its list (`remaining`), and the miner's loop takes
each account's transactions from the front of that list: all of them when it
only shifts, a prefix of them when it pops.

The virtual difficulty is read through a function of the transaction, the
account and the snapshot, and the signer through `Sender`, which answers the
address the code goes on with (the zero address on an error, which it
ignores). The accounts are visited in the order of the map's entries: Go
randomises that order, and every result here holds for every list of entries.
A key the constructor adds while it iterates is not visited, which is one of
the behaviours Go allows.
-/

import Ebakus.Lang.Heap
import Ebakus.Lang.Go
import Ebakus.Common.Types
import Mathlib.Data.List.AList

namespace Ebakus.Core.Types

open Ebakus.Lang Ebakus.Common

variable {Tx Snapshot D : Type}

/-- `TxByPrice`: a head transaction, the account it was listed under (the
field `from`) and the snapshot its virtual difficulty is read in. -/
structure TxByPrice (Tx Snapshot : Type) where
  tx : Tx
  sender : Address
  ebakusState : Snapshot

/-- `TransactionsByVirtualDifficultyAndNonce`: the rest of each account's list
and the heap of heads. -/
structure TransactionsByVirtualDifficultyAndNonce (Tx Snapshot : Type) where
  txs : AList fun _ : Address => List Tx
  heads : List (TxByPrice Tx Snapshot)

namespace TransactionsByVirtualDifficultyAndNonce

variable (Sender : Tx → Address) [LinearOrder D] (VirtualDifficulty : Tx → Address → Snapshot → D)

/-- `TxsByPrice.Less`: a head goes first when its virtual difficulty is the
greater one (`curcv.Cmp(nextcv) == 1`). -/
def Less (cur next : TxByPrice Tx Snapshot) : Bool :=
  decide (VirtualDifficulty next.tx next.sender next.ebakusState <
    VirtualDifficulty cur.tx cur.sender cur.ebakusState)

/-- The constructor's loop over the accounts: each list gives its first
transaction as the account's head and stays, without it, under the address its
sender recovers to. An account deleted on the way is not visited. -/
def newLoop (ebakusState : Snapshot) :
    List Address → (AList fun _ : Address => List Tx) → List (TxByPrice Tx Snapshot) →
      Go ((AList fun _ : Address => List Tx) × List (TxByPrice Tx Snapshot))
  | [], txs, heads => .ok (txs, heads)
  | addr :: addrs, txs, heads =>
    match txs.lookup addr with
    | none => newLoop ebakusState addrs txs heads
    | some [] => .error .indexOutOfRange
    | some (tx :: later) =>
      let acc := Sender tx
      let txs := txs.insert acc later
      let txs := if addr ≠ acc then txs.erase addr else txs
      newLoop ebakusState addrs txs (heads ++ [⟨tx, addr, ebakusState⟩])

/-- `NewTransactionsByVirtualDifficultyAndNonce`. -/
def NewTransactionsByVirtualDifficultyAndNonce (txs : AList fun _ : Address => List Tx)
    (ebakusState : Snapshot) : Go (TransactionsByVirtualDifficultyAndNonce Tx Snapshot) := do
  let (txs', heads) ← newLoop Sender ebakusState txs.keys txs []
  return ⟨txs', Heap.Init (Less VirtualDifficulty) heads⟩

/-- `Peek`. -/
def Peek (t : TransactionsByVirtualDifficultyAndNonce Tx Snapshot) : Option Tx :=
  t.heads.head?.map (·.tx)

/-- `Shift`: the next transaction of the head's account takes the head's
place, or the head goes when the account has no more. -/
def Shift (t : TransactionsByVirtualDifficultyAndNonce Tx Snapshot) :
    Go (TransactionsByVirtualDifficultyAndNonce Tx Snapshot) :=
  match t.heads with
  | [] => .error .indexOutOfRange
  | head :: _ =>
    let acc := Sender head.tx
    match t.txs.lookup acc with
    | some (next :: later) =>
      .ok ⟨t.txs.insert acc later, Heap.Fix (Less VirtualDifficulty) (t.heads.set 0 { head with tx := next }) 0⟩
    | _ => .ok ⟨t.txs, (Heap.Pop (Less VirtualDifficulty) t.heads).1⟩

/-- `Pop`: the head goes, with the rest of its account. -/
def Pop (t : TransactionsByVirtualDifficultyAndNonce Tx Snapshot) :
    Go (TransactionsByVirtualDifficultyAndNonce Tx Snapshot) :=
  match t.heads with
  | [] => .error .indexOutOfRange
  | _ :: _ => .ok ⟨t.txs, (Heap.Pop (Less VirtualDifficulty) t.heads).1⟩

/-- The miner's loop over the set: `Peek` until it answers nil, each answer
followed by `Shift` or `Pop` as the choices say. Answers the transactions
handed out and the set it leaves. -/
def drain : List Bool → TransactionsByVirtualDifficultyAndNonce Tx Snapshot →
    Go (List Tx × TransactionsByVirtualDifficultyAndNonce Tx Snapshot)
  | [], t => .ok ([], t)
  | shift :: choices, t =>
    match t.Peek with
    | none => .ok ([], t)
    | some tx => do
      let t' ← if shift then t.Shift Sender VirtualDifficulty else t.Pop VirtualDifficulty
      let (out, last) ← drain choices t'
      return (tx :: out, last)

/-- The head of account `a`, while it has one. -/
def headOf (t : TransactionsByVirtualDifficultyAndNonce Tx Snapshot) (a : Address) :
    Option (TxByPrice Tx Snapshot) :=
  t.heads.find? (·.sender == a)

/-- What account `a` has still to give: its head and the rest of its list;
nothing once its head is gone. -/
def remaining (t : TransactionsByVirtualDifficultyAndNonce Tx Snapshot) (a : Address) : List Tx :=
  match t.headOf a with
  | some head => head.tx :: (t.txs.lookup a).getD []
  | none => []

/-- The set's invariant: one head for each account that has one, and every
transaction still to come signed by its account. -/
structure Consistent (t : TransactionsByVirtualDifficultyAndNonce Tx Snapshot) : Prop where
  nodup : (t.heads.map (·.sender)).Nodup
  signed : ∀ a, ∀ tx ∈ t.remaining a, Sender tx = a

/-- On a list with distinct keys, the element `find?` finds by its key does not
depend on the order of the list. -/
theorem find?_key_of_perm {β κ : Type} [DecidableEq κ] {key : β → κ} {l₁ l₂ : List β} (perm : l₁.Perm l₂)
    (nodup : (l₁.map key).Nodup) (a : κ) : l₁.find? (key · == a) = l₂.find? (key · == a) := by
  cases found₁ : l₁.find? (key · == a) with
  | none =>
    symm
    rw [List.find?_eq_none] at found₁ ⊢
    exact fun x mem => found₁ x (perm.mem_iff.mpr mem)
  | some x =>
    have mem₁ := List.mem_of_find?_eq_some found₁
    have key₁ := List.find?_some found₁
    cases found₂ : l₂.find? (key · == a) with
    | none =>
      rw [List.find?_eq_none] at found₂
      exact absurd key₁ (found₂ x (perm.mem_iff.mp mem₁))
    | some y =>
      have mem₂ := perm.mem_iff.mpr (List.mem_of_find?_eq_some found₂)
      have key₂ := List.find?_some found₂
      simp only [beq_iff_eq] at key₁ key₂
      rw [List.inj_on_of_nodup_map nodup mem₁ mem₂ (key₁.trans key₂.symm)]

section Classes

variable {β κ : Type} [DecidableEq κ] (key : β → κ)

/-- Two lists that agree on every class of a key are permutations of each other. -/
theorem perm_of_filter_key {l₁ l₂ : List β} (same : ∀ a, l₁.filter (key · = a) = l₂.filter (key · = a)) :
    l₁.Perm l₂ := by
  classical
  rw [List.perm_iff_count]
  intro x
  rw [← List.count_filter (p := fun y => decide (key y = key x)) (by simp), same,
    List.count_filter (by simp)]

/-- A list whose classes by a key have no duplicates has none. -/
theorem nodup_of_filter_key {l : List β} (nodup : ∀ a, (l.filter (key · = a)).Nodup) : l.Nodup := by
  classical
  rw [List.nodup_iff_count_le_one]
  intro x
  rw [← List.count_filter (p := fun y => decide (key y = key x)) (by simp)]
  exact List.nodup_iff_count_le_one.mp (nodup (key x)) x

end Classes

/-- The lists of a map, joined, keep of each key the list under it. -/
theorem flatMap_key_eq {γ : Type} {l : List (Sigma fun _ : Address => List γ)} (nodupKeys : l.NodupKeys)
    (a : Address) : l.flatMap (fun e => if e.1 = a then e.2 else []) = (l.dlookup a).getD [] := by
  induction l with
  | nil => rfl
  | cons e l ih =>
    obtain ⟨k, items⟩ := e
    obtain ⟨fresh, nodupKeys⟩ := List.nodupKeys_cons.mp nodupKeys
    by_cases here : k = a
    · subst here
      have absent : l.flatMap (fun e => if e.1 = k then e.2 else []) = [] := by
        simp only [List.flatMap_eq_nil_iff, ite_eq_right_iff]
        intro e mem same
        have listed := List.mem_keys_of_mem mem
        rw [same] at listed
        exact absurd listed fresh
      simp [List.dlookup_cons_eq, absent]
    · simp [here, List.dlookup_cons_ne l ⟨k, items⟩ (Ne.symm here), ih nodupKeys]

section Run

variable {Sender}
variable {t : TransactionsByVirtualDifficultyAndNonce Tx Snapshot} {head : TxByPrice Tx Snapshot}
  {rest : List (TxByPrice Tx Snapshot)}

theorem Peek_of_heads (heads : t.heads = head :: rest) : t.Peek = some head.tx := by
  simp [Peek, heads]

theorem remaining_of_heads (heads : t.heads = head :: rest) :
    t.remaining head.sender = head.tx :: (t.txs.lookup head.sender).getD [] := by
  simp [remaining, headOf, heads]

theorem Consistent.sender_head (consistent : Consistent Sender t) (heads : t.heads = head :: rest) :
    Sender head.tx = head.sender :=
  consistent.signed _ _ (by rw [remaining_of_heads heads]; exact List.mem_cons_self)

/-- Dropping the root of the heap of heads, as `Pop` and `Shift` on an account
with no more do: the account has nothing left to give, the others keep what
they had. -/
theorem remaining_of_Pop (consistent : Consistent Sender t) (heads : t.heads = head :: rest)
    (less : TxByPrice Tx Snapshot → TxByPrice Tx Snapshot → Bool) :
    (((Heap.Pop less t.heads).1).map (·.sender)).Nodup ∧
      ∀ a, remaining ⟨t.txs, (Heap.Pop less t.heads).1⟩ a = if a = head.sender then [] else t.remaining a := by
  obtain ⟨rest', x, popped⟩ : ∃ rest' x, Heap.Pop less t.heads = (rest', some x) :=
    Heap.Pop_eq_some (heads ▸ List.cons_ne_nil head rest)
  have root := Heap.Pop_root popped
  rw [heads] at root
  cases root
  have perm := Heap.perm_Pop popped
  have nodup : ((head :: rest').map (·.sender)).Nodup := (perm.map _).nodup_iff.mpr consistent.nodup
  rw [popped]
  refine ⟨(List.nodup_cons.mp nodup).2, fun a => ?_⟩
  by_cases mine : a = head.sender
  · subst mine
    have absent : rest'.find? (·.sender == head.sender) = none := by
      rw [List.find?_eq_none]
      intro y mem same
      exact (List.nodup_cons.mp nodup).1 (List.mem_map.mpr ⟨y, mem, by simpa using same⟩)
    simp [remaining, headOf, absent]
  · have same := find?_key_of_perm perm nodup a
    have differ : (head.sender == a) = false := by simpa using Ne.symm mine
    rw [List.find?_cons, differ] at same
    simp [remaining, headOf, same, mine]

/-- The next transaction of the head's account takes the head's place, as
`Shift` does when the account has more: the account gives up its head, the
others keep what they had. -/
theorem remaining_of_Fix (consistent : Consistent Sender t) (heads : t.heads = head :: rest) {next : Tx}
    {later : List Tx} (more : t.txs.lookup head.sender = some (next :: later))
    (less : TxByPrice Tx Snapshot → TxByPrice Tx Snapshot → Bool) :
    ((Heap.Fix less (t.heads.set 0 { head with tx := next }) 0).map (·.sender)).Nodup ∧
      ∀ a, remaining ⟨t.txs.insert head.sender later, Heap.Fix less (t.heads.set 0 { head with tx := next }) 0⟩ a =
        if a = head.sender then (t.remaining a).tail else t.remaining a := by
  have perm : (Heap.Fix less (t.heads.set 0 { head with tx := next }) 0).Perm (t.heads.set 0 { head with tx := next }) :=
    Heap.perm_Fix _ 0
  rw [heads, List.set_cons_zero] at perm ⊢
  have nodup : (({ head with tx := next } :: rest).map (·.sender)).Nodup := by
    simpa [heads] using consistent.nodup
  refine ⟨(perm.map _).nodup_iff.mpr nodup, fun a => ?_⟩
  have same := find?_key_of_perm perm.symm nodup a
  by_cases mine : a = head.sender
  · subst mine
    simp [remaining, headOf, ← same, heads, more]
  · have differ : (head.sender == a) = false := by simpa using Ne.symm mine
    simp [remaining, headOf, ← same, heads, differ, mine, AList.lookup_insert_ne mine]

/-- What `Shift` does to the accounts: the head's account gives up its head. -/
theorem Shift_spec (consistent : Consistent Sender t) (heads : t.heads = head :: rest) :
    ∃ t', t.Shift Sender VirtualDifficulty = .ok t' ∧ (t'.heads.map (·.sender)).Nodup ∧
      ∀ a, t'.remaining a = if a = head.sender then (t.remaining a).tail else t.remaining a := by
  have signer := consistent.sender_head heads
  unfold Shift
  rw [heads]
  dsimp only
  rw [signer]
  rcases more : t.txs.lookup head.sender with _ | _ | ⟨next, later⟩
  all_goals dsimp only
  · have popped := remaining_of_Pop consistent heads (Less VirtualDifficulty)
    rw [heads] at popped
    refine ⟨_, rfl, popped.1, fun a => ?_⟩
    rw [popped.2 a]
    split <;> simp_all [remaining_of_heads heads]
  · have popped := remaining_of_Pop consistent heads (Less VirtualDifficulty)
    rw [heads] at popped
    refine ⟨_, rfl, popped.1, fun a => ?_⟩
    rw [popped.2 a]
    split <;> simp_all [remaining_of_heads heads]
  · have fixed := remaining_of_Fix consistent heads more (Less VirtualDifficulty)
    rw [heads] at fixed
    exact ⟨_, rfl, fixed⟩

/-- What `Pop` does to the accounts: the head's account has nothing more to give. -/
theorem Pop_spec (consistent : Consistent Sender t) (heads : t.heads = head :: rest) :
    ∃ t', t.Pop VirtualDifficulty = .ok t' ∧ (t'.heads.map (·.sender)).Nodup ∧
      ∀ a, t'.remaining a = if a = head.sender then [] else t.remaining a := by
  have popped := remaining_of_Pop consistent heads (Less VirtualDifficulty)
  unfold Pop
  rw [heads]
  rw [heads] at popped
  exact ⟨_, rfl, popped⟩

theorem Consistent.of_remaining {t' : TransactionsByVirtualDifficultyAndNonce Tx Snapshot}
    (consistent : Consistent Sender t) (nodup : (t'.heads.map (·.sender)).Nodup)
    (within : ∀ a, ∀ tx ∈ t'.remaining a, tx ∈ t.remaining a) : Consistent Sender t' :=
  ⟨nodup, fun a tx mem => consistent.signed a tx (within a tx mem)⟩

/-- One turn of the miner's loop, by `Shift` or `Pop`: the head's account
gives its head and at most the rest, the others keep what they had. -/
theorem step_spec (consistent : Consistent Sender t) (heads : t.heads = head :: rest) (shift : Bool) :
    ∃ t', (if shift then t.Shift Sender VirtualDifficulty else t.Pop VirtualDifficulty) = .ok t' ∧
      Consistent Sender t' ∧
      ∀ a, t'.remaining a <+: if a = head.sender then (t.remaining a).tail else t.remaining a := by
  have shrinks : ∀ t' : TransactionsByVirtualDifficultyAndNonce Tx Snapshot, (t'.heads.map (·.sender)).Nodup →
      (∀ a, t'.remaining a <+: if a = head.sender then (t.remaining a).tail else t.remaining a) →
      Consistent Sender t' := by
    intro t' nodup prefixes
    refine consistent.of_remaining nodup fun a tx mem => ?_
    have kept := (prefixes a).subset mem
    split at kept
    · exact List.mem_of_mem_tail kept
    · exact kept
  cases shift
  · obtain ⟨t', popped, nodup, dropped⟩ := Pop_spec VirtualDifficulty consistent heads
    have prefixes : ∀ a, t'.remaining a <+: if a = head.sender then (t.remaining a).tail else t.remaining a := by
      intro a
      rw [dropped a]
      split
      · exact List.nil_prefix
      · exact List.prefix_refl _
    exact ⟨t', popped, shrinks t' nodup prefixes, prefixes⟩
  · obtain ⟨t', shifted, nodup, moved⟩ := Shift_spec VirtualDifficulty consistent heads
    have prefixes : ∀ a, t'.remaining a <+: if a = head.sender then (t.remaining a).tail else t.remaining a :=
      fun a => (moved a).symm ▸ List.prefix_refl _
    exact ⟨t', shifted, shrinks t' nodup prefixes, prefixes⟩

/-- A transaction handed out leaves what its account had still to give. -/
theorem filter_cons_prefix {tx : Tx} {out rem : List Tx} {a : Address}
    (signer : Sender tx = a → rem.head? = some tx)
    (rest : out.filter (Sender · = a) <+: if a = Sender tx then rem.tail else rem) :
    (tx :: out).filter (Sender · = a) <+: rem := by
  by_cases mine : Sender tx = a
  · rw [if_pos mine.symm] at rest
    obtain ⟨later, rfl⟩ := List.head?_eq_some_iff.mp (signer mine)
    simpa [mine] using rest
  · simpa [mine, Ne.symm mine] using rest

/-- Every run of the miner's loop ends without a panic, and hands out of each
account a prefix of what it had still to give. -/
theorem drain_prefix (choices : List Bool) (consistent : Consistent Sender t) :
    ∃ out last, drain Sender VirtualDifficulty choices t = .ok (out, last) ∧
      ∀ a, out.filter (Sender · = a) <+: t.remaining a := by
  induction choices generalizing t with
  | nil => exact ⟨[], t, rfl, fun a => List.nil_prefix⟩
  | cons shift choices ih =>
    rcases heads : t.heads with _ | ⟨head, rest⟩
    · exact ⟨[], t, by simp [drain, Peek, heads], fun a => List.nil_prefix⟩
    · obtain ⟨t', stepped, consistent', prefixes⟩ := step_spec VirtualDifficulty consistent heads shift
      obtain ⟨out, last, ran, prefixes'⟩ := ih consistent'
      have signer := consistent.sender_head heads
      refine ⟨head.tx :: out, last, ?_, fun a => ?_⟩
      · cases shift <;> simp only [Bool.false_eq_true, if_true, if_false] at stepped <;>
          simp [drain, Peek_of_heads heads, stepped, ran]
      refine filter_cons_prefix (fun mine => ?_) ((prefixes' a).trans ?_)
      · rw [← mine, signer, remaining_of_heads heads]
        rfl
      · have := prefixes a
        rwa [signer]

/-- Changing a function at one key of a list of distinct keys changes the
sum over the list by the change at that key. -/
theorem sum_map_of_eq_off {keys : List Address} (nodup : keys.Nodup) {a : Address} (mem : a ∈ keys)
    {f g : Address → Nat} (others : ∀ b, b ≠ a → f b = g b) :
    (keys.map f).sum + g a = (keys.map g).sum + f a := by
  induction keys with
  | nil => cases mem
  | cons k keys ih =>
    obtain ⟨fresh, nodup⟩ := List.nodup_cons.mp nodup
    by_cases here : k = a
    · subst here
      have same : keys.map f = keys.map g :=
        List.map_congr_left fun b mem' => others b fun same => fresh (same ▸ mem')
      simp only [List.map_cons, List.sum_cons, same]
      omega
    · have later := ih nodup ((List.mem_cons.mp mem).resolve_left (Ne.symm here))
      simp only [List.map_cons, List.sum_cons, others k here]
      omega

theorem remaining_of_heads_nil (heads : t.heads = []) (a : Address) : t.remaining a = [] := by
  simp [remaining, headOf, heads]

/-- Shifting as long as the set answers hands out exactly what every account
had still to give, and leaves the set empty. -/
theorem drain_shifts {keys : List Address} (nodup : keys.Nodup) (N : Nat) (consistent : Consistent Sender t)
    (covers : ∀ a, t.remaining a ≠ [] → a ∈ keys) (count : (keys.map fun a => (t.remaining a).length).sum = N) :
    ∃ out last, drain Sender VirtualDifficulty (List.replicate N true) t = .ok (out, last) ∧ last.Peek = none ∧
      ∀ a, out.filter (Sender · = a) = t.remaining a := by
  induction N generalizing t with
  | zero =>
    have empty : t.heads = [] := by
      rcases heads : t.heads with _ | ⟨head, rest⟩
      · rfl
      · have given := remaining_of_heads heads
        have zero := List.sum_eq_zero_iff_forall_eq_nat.mp count _
          (List.mem_map.mpr ⟨head.sender, covers _ (by simp [given]), rfl⟩)
        simp [given] at zero
    exact ⟨[], t, rfl, by simp [Peek, empty], fun a => by simp [remaining_of_heads_nil empty]⟩
  | succ N ih =>
    rcases heads : t.heads with _ | ⟨head, rest⟩
    · simp [remaining_of_heads_nil heads] at count
    · obtain ⟨t', shifted, nodup', moved⟩ := Shift_spec VirtualDifficulty consistent heads
      have given := remaining_of_heads heads
      have signer := consistent.sender_head heads
      have consistent' : Consistent Sender t' := consistent.of_remaining nodup' fun a tx mem => by
        rw [moved a] at mem
        split at mem
        · exact List.mem_of_mem_tail mem
        · exact mem
      have covers' : ∀ a, t'.remaining a ≠ [] → a ∈ keys := by
        intro a some'
        apply covers a
        rw [moved a] at some'
        split at some'
        · intro none
          simp [none] at some'
        · exact some'
      have count' : (keys.map fun a => (t'.remaining a).length).sum = N := by
        have shifted := sum_map_of_eq_off nodup (covers head.sender (by simp [given]))
          (f := fun a => (t'.remaining a).length) (g := fun a => (t.remaining a).length)
          fun b other => by simp [moved b, other]
        simp only [moved head.sender, if_true, given, List.tail_cons, List.length_cons] at shifted
        omega
      obtain ⟨out, last, ran, empty, handed⟩ := ih consistent' covers' count'
      refine ⟨head.tx :: out, last, by simp [List.replicate_succ, drain, Peek_of_heads heads, shifted, ran],
        empty, fun a => ?_⟩
      by_cases mine : a = head.sender
      · subst mine
        simp [signer, handed, moved, given]
      · have other : Sender head.tx ≠ a := signer ▸ Ne.symm mine
        simp [other, handed, moved, mine]

/-- The constructor's loop over accounts whose lists are non-empty and signed
by them: each gives its first transaction as its head and keeps the rest. -/
theorem newLoop_spec (ebakusState : Snapshot) {addrs : List Address} (nodup : addrs.Nodup)
    (txs : AList fun _ : Address => List Tx) (heads : List (TxByPrice Tx Snapshot))
    (signed : ∀ a ∈ addrs, ∃ tx later, txs.lookup a = some (tx :: later) ∧ Sender tx = a) :
    ∃ txs' heads', newLoop Sender ebakusState addrs txs heads = .ok (txs', heads') ∧
      heads'.map (·.sender) = heads.map (·.sender) ++ addrs ∧
      (∀ h ∈ heads', h ∈ heads ∨ h.sender ∈ addrs ∧ ∃ later, txs.lookup h.sender = some (h.tx :: later)) ∧
      ∀ b, txs'.lookup b = if b ∈ addrs then (txs.lookup b).map List.tail else txs.lookup b := by
  induction addrs generalizing txs heads with
  | nil => exact ⟨txs, heads, rfl, by simp, fun h mem => .inl mem, fun b => by simp⟩
  | cons a addrs ih =>
    obtain ⟨fresh, nodup⟩ := List.nodup_cons.mp nodup
    obtain ⟨tx, later, first, signer⟩ := signed a List.mem_cons_self
    have kept : ∀ b ∈ addrs, (txs.insert a later).lookup b = txs.lookup b := fun b mem =>
      AList.lookup_insert_ne fun same => fresh (same ▸ mem)
    obtain ⟨txs', heads', ran, senders, origin, lookups⟩ :=
      ih nodup (txs.insert a later) (heads ++ [⟨tx, a, ebakusState⟩]) fun b mem => by
        rw [kept b mem]
        exact signed b (List.mem_cons_of_mem a mem)
    refine ⟨txs', heads', ?_, by simp [senders], fun h mem => ?_, fun b => ?_⟩
    · simp [newLoop, first, signer, ran]
    · rcases origin h mem with older | ⟨listed, rest', lookedUp⟩
      · rcases List.mem_append.mp older with older | added
        · exact .inl older
        · rw [List.mem_singleton.mp added]
          exact .inr ⟨List.mem_cons_self, later, first⟩
      · refine .inr ⟨List.mem_cons_of_mem a listed, rest', ?_⟩
        rw [← kept _ listed]
        exact lookedUp
    · rw [lookups b]
      by_cases here : b = a
      · subst here
        simp [fresh, first]
      · by_cases mem : b ∈ addrs
        · simp [mem, kept b mem]
        · simp [mem, here, AList.lookup_insert_ne here]

/-- The constructor, on lists that are non-empty and signed by their
accounts: each account has its whole list still to give. -/
theorem New_spec (txs : AList fun _ : Address => List Tx) (ebakusState : Snapshot)
    (nonempty : ∀ a l, txs.lookup a = some l → l ≠ [])
    (signed : ∀ a l, txs.lookup a = some l → ∀ tx ∈ l, Sender tx = a) :
    ∃ t, NewTransactionsByVirtualDifficultyAndNonce Sender VirtualDifficulty txs ebakusState = .ok t ∧
      Consistent Sender t ∧ ∀ a, t.remaining a = (txs.lookup a).getD [] := by
  have firsts : ∀ a ∈ txs.keys, ∃ tx later, txs.lookup a = some (tx :: later) ∧ Sender tx = a := by
    intro a mem
    obtain ⟨l, found⟩ := Option.isSome_iff_exists.mp (AList.lookup_isSome.mpr (AList.mem_keys.mpr mem))
    obtain ⟨tx, later, rfl⟩ := List.exists_cons_of_ne_nil (nonempty a l found)
    exact ⟨tx, later, found, signed a _ found tx List.mem_cons_self⟩
  obtain ⟨txs', heads, ran, senders, origin, lookups⟩ :=
    newLoop_spec ebakusState txs.keys_nodup txs [] firsts
  simp only [List.map_nil, List.nil_append] at senders
  have perm : (Heap.Init (Less VirtualDifficulty) heads).Perm heads := Heap.perm_Init heads
  have nodup : (heads.map (·.sender)).Nodup := senders ▸ txs.keys_nodup
  have remaining' : ∀ a, remaining ⟨txs', Heap.Init (Less VirtualDifficulty) heads⟩ a = (txs.lookup a).getD [] := by
    intro a
    have same := find?_key_of_perm perm.symm nodup a
    unfold remaining headOf
    rw [← same]
    by_cases listed : a ∈ txs.keys
    · obtain ⟨h, mem, named⟩ : ∃ h ∈ heads, h.sender = a := List.mem_map.mp (senders ▸ listed)
      cases found : heads.find? (·.sender == a) with
      | none =>
        rw [List.find?_eq_none] at found
        exact absurd (by simp [named]) (found h mem)
      | some h' =>
        have named' : h'.sender = a := by simpa using List.find?_some found
        rcases origin h' (List.mem_of_find?_eq_some found) with absurd | ⟨-, later, first⟩
        · cases absurd
        · rw [named'] at first
          simp [lookups a, listed, first]
    · have absent : heads.find? (·.sender == a) = none := by
        rw [List.find?_eq_none]
        intro h mem named
        exact listed (senders ▸ List.mem_map.mpr ⟨h, mem, by simpa using named⟩)
      have none : txs.lookup a = none := AList.lookup_eq_none.mpr fun mem => listed (AList.mem_keys.mp mem)
      simp [absent, none]
  refine ⟨_, by simp [NewTransactionsByVirtualDifficultyAndNonce, ran], ⟨?_, fun a tx mem => ?_⟩, remaining'⟩
  · rw [(perm.map _).nodup_iff]
    exact nodup
  · rw [remaining' a] at mem
    cases found : txs.lookup a with
    | none => simp [found] at mem
    | some l => exact signed a l found tx (by simpa [found] using mem)

/-- What every account has to give at the start, summed over the accounts, is
the number of transactions in the map. -/
theorem sum_remaining_keys (txs : AList fun _ : Address => List Tx) :
    (txs.keys.map fun a => ((txs.lookup a).getD []).length).sum = (txs.entries.flatMap (·.2)).length := by
  rw [List.length_flatMap, AList.keys, List.keys, List.map_map]
  congr 1
  apply List.map_congr_left
  intro e mem
  have found : txs.lookup e.1 = some e.2 := AList.mem_lookup_iff.mpr mem
  simp [found]

/-- The transactions of the map signed by an account are its list. -/
theorem filter_flatMap_entries (txs : AList fun _ : Address => List Tx)
    (signed : ∀ a l, txs.lookup a = some l → ∀ tx ∈ l, Sender tx = a) (a : Address) :
    (txs.entries.flatMap (·.2)).filter (Sender · = a) = (txs.lookup a).getD [] := by
  rw [List.filter_flatMap, AList.lookup, ← flatMap_key_eq txs.nodupKeys a]
  apply List.flatMap_congr
  intro e mem
  have found : txs.lookup e.1 = some e.2 := AList.mem_lookup_iff.mpr mem
  by_cases here : e.1 = a
  · rw [if_pos here, List.filter_eq_self]
    intro tx listed
    simpa [here] using signed e.1 e.2 found tx listed
  · rw [if_neg here, List.filter_eq_nil_iff]
    intro tx listed
    simpa [signed e.1 e.2 found tx listed] using here

end Run

/-- Draining the set with `Shift` until `Peek` answers nil hands out every
transaction of the map once, each account's in the order of its list; with
`Pop` called on some heads instead, no transaction comes twice and each
account gives a prefix of its list, in its nonce order. -/
theorem drain_hands_out_each_transaction_once (Nonce : Tx → UInt64) (txs : AList fun _ : Address => List Tx)
    (ebakusState : Snapshot) (nonempty : ∀ a l, txs.lookup a = some l → l ≠ [])
    (signed : ∀ a l, txs.lookup a = some l → ∀ tx ∈ l, Sender tx = a)
    (sorted : ∀ a l, txs.lookup a = some l → l.Pairwise fun x y => Nonce x < Nonce y) :
    ∃ t, NewTransactionsByVirtualDifficultyAndNonce Sender VirtualDifficulty txs ebakusState = .ok t ∧
      (∃ out last, drain Sender VirtualDifficulty (List.replicate (txs.entries.flatMap (·.2)).length true) t =
          .ok (out, last) ∧ last.Peek = none ∧ out.Perm (txs.entries.flatMap (·.2)) ∧
        ∀ a, out.filter (Sender · = a) = (txs.lookup a).getD []) ∧
      ∀ choices, ∃ out last, drain Sender VirtualDifficulty choices t = .ok (out, last) ∧ out.Nodup ∧
        ∀ a, out.filter (Sender · = a) <+: (txs.lookup a).getD [] ∧
          (out.filter (Sender · = a)).Pairwise fun x y => Nonce x < Nonce y := by
  obtain ⟨t, made, consistent, given⟩ := New_spec VirtualDifficulty txs ebakusState nonempty signed
  have ordered : ∀ a, ((txs.lookup a).getD []).Pairwise fun x y => Nonce x < Nonce y := by
    intro a
    cases found : txs.lookup a with
    | none => exact List.Pairwise.nil
    | some l => exact sorted a l found
  refine ⟨t, made, ?_, fun choices => ?_⟩
  · have covers : ∀ a, t.remaining a ≠ [] → a ∈ txs.keys := by
      intro a some
      rw [given a] at some
      cases found : txs.lookup a with
      | none => simp [found] at some
      | some l => exact AList.mem_keys.mp (AList.lookup_isSome.mp (by simp [found]))
    have count : (txs.keys.map fun a => (t.remaining a).length).sum = (txs.entries.flatMap (·.2)).length := by
      simp only [given]
      exact sum_remaining_keys txs
    obtain ⟨out, last, ran, empty, handed⟩ := drain_shifts VirtualDifficulty txs.keys_nodup _ consistent covers count
    refine ⟨out, last, ran, empty, perm_of_filter_key Sender fun a => ?_, fun a => (handed a).trans (given a)⟩
    rw [handed a, given a, filter_flatMap_entries txs signed a]
  · obtain ⟨out, last, ran, prefixes⟩ := drain_prefix VirtualDifficulty choices consistent
    have ordered' : ∀ a, (out.filter (Sender · = a)).Pairwise fun x y => Nonce x < Nonce y := fun a =>
      (ordered a).sublist ((given a) ▸ prefixes a).sublist
    refine ⟨out, last, ran, nodup_of_filter_key Sender fun a => ?_, fun a => ⟨given a ▸ prefixes a, ordered' a⟩⟩
    exact (ordered' a).imp fun lower same => by subst same; exact absurd lower (UInt64.lt_irrefl _)

/-- Two accounts, one with two transactions: shifting three times hands out
all three. -/
theorem drain_hands_out_each_transaction_once_of_two_accounts :
    ∃ t out last, NewTransactionsByVirtualDifficultyAndNonce Prod.fst (fun (tx : Address × UInt64) _ (_ : Unit) => tx.2.toNat)
        (((∅ : AList fun _ : Address => List (Address × UInt64)).insert (BytesToAddress [1])
          [(BytesToAddress [1], 0), (BytesToAddress [1], 1)]).insert (BytesToAddress [2]) [(BytesToAddress [2], 5)]) () = .ok t ∧
      drain Prod.fst (fun (tx : Address × UInt64) _ (_ : Unit) => tx.2.toNat) (List.replicate 3 true) t = .ok (out, last) ∧
      out.Perm [(BytesToAddress [2], 5), (BytesToAddress [1], 0), (BytesToAddress [1], 1)] := by
  have listed : ∀ a l, (((∅ : AList fun _ : Address => List (Address × UInt64)).insert (BytesToAddress [1])
          [(BytesToAddress [1], 0), (BytesToAddress [1], 1)]).insert (BytesToAddress [2]) [(BytesToAddress [2], 5)]).lookup a = some l →
      a = BytesToAddress [1] ∧ l = [(BytesToAddress [1], 0), (BytesToAddress [1], 1)] ∨
        a = BytesToAddress [2] ∧ l = [(BytesToAddress [2], 5)] := by
    intro a l found
    by_cases second : a = BytesToAddress [2]
    · subst second
      simp only [AList.lookup_insert, Option.some.injEq] at found
      exact .inr ⟨rfl, found.symm⟩
    · rw [AList.lookup_insert_ne second] at found
      by_cases first : a = BytesToAddress [1]
      · subst first
        simp only [AList.lookup_insert, Option.some.injEq] at found
        exact .inl ⟨rfl, found.symm⟩
      · rw [AList.lookup_insert_ne first] at found
        cases found
  obtain ⟨t, made, ⟨out, last, ran, -, perm, -⟩, -⟩ :=
    drain_hands_out_each_transaction_once Prod.fst (fun (tx : Address × UInt64) _ (_ : Unit) => tx.2.toNat) Prod.snd
      (((∅ : AList fun _ : Address => List (Address × UInt64)).insert (BytesToAddress [1])
          [(BytesToAddress [1], 0), (BytesToAddress [1], 1)]).insert (BytesToAddress [2]) [(BytesToAddress [2], 5)]) ()
      (fun a l found => by rcases listed a l found with ⟨-, rfl⟩ | ⟨-, rfl⟩ <;> simp)
      (fun a l found => by rcases listed a l found with ⟨rfl, rfl⟩ | ⟨rfl, rfl⟩ <;> simp)
      (fun a l found => by rcases listed a l found with ⟨-, rfl⟩ | ⟨-, rfl⟩ <;> decide)
  have joined : ((((∅ : AList fun _ : Address => List (Address × UInt64)).insert (BytesToAddress [1])
      [(BytesToAddress [1], 0), (BytesToAddress [1], 1)]).insert (BytesToAddress [2])
        [(BytesToAddress [2], 5)]).entries.flatMap (·.2)) =
      [(BytesToAddress [2], 5), (BytesToAddress [1], 0), (BytesToAddress [1], 1)] := by
    decide
  rw [joined] at ran perm
  exact ⟨t, out, last, made, ran, perm⟩

end TransactionsByVirtualDifficultyAndNonce

end Ebakus.Core.Types
