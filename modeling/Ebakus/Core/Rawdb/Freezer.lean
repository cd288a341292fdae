/-
# The freezer (`core/rawdb/freezer.go`)

The freezer keeps the ancient blocks in five freezer tables, one per kind of
data, and counts the blocks it has frozen. `AppendAncient` appends the next
block to every table, hashes first; when a table refuses its blob, the
deferred `repair` cuts every table back to the shortest one and sets the
count to it. `TruncateAncients` cuts every table to a number of blocks, and
`newFreezer` opens the tables and repairs them.

A method returns its error together with the freezer it leaves, since the Go
methods change the tables they reach before an error. `tables` is a Go map,
so `repair` and `TruncateAncients` visit the tables in an order the runtime
picks: the model takes that order as an argument, and the results hold for
every order that visits each table once. `log.Crit`, which ends the process
when the deferred repair fails, is modelled by the state that repair leaves.
The tables are those of `Ebakus.Core.Rawdb.FreezerTable`.

A freezer that stores a list of blocks stores one after every call: an
append numbered next adds its block, any other number is refused and changes
nothing, and a truncation keeps a prefix (`Stores.step`). So from
`newFreezer`, every run of calls leaves a freezer that returns, for each kind
and number, the blob of the blocks the calls leave.
-/

import Ebakus.Core.Rawdb.FreezerRun
import Ebakus.Lang.MapRange

namespace Ebakus.Core.Rawdb

open Ebakus.Lang

/-! ### The tables -/

/-- The kinds of ancient data, one freezer table each (`schema.go`). -/
inductive TableKind
  | headers
  | hashes
  | bodies
  | receipts
  | snapshots
  deriving DecidableEq, Repr

namespace TableKind

/-- The table names of `schema.go`, the keys of `freezer.tables`. -/
def name : TableKind → String
  | headers => "headers"
  | hashes => "hashes"
  | bodies => "bodies"
  | receipts => "receipts"
  | snapshots => "snapshots"

/-- `freezerNoSnappy`: hashes are stored raw, the other kinds through snappy. -/
def noSnappy : TableKind → Bool
  | hashes => true
  | _ => false

/-- The kinds, in the order of `freezerNoSnappy`. -/
def all : List TableKind := [headers, hashes, bodies, receipts, snapshots]

theorem mem_all (k : TableKind) : k ∈ all := by
  cases k <;> decide

/-- A statement about every kind is decided kind by kind. -/
instance decidableForall (P : TableKind → Prop) [DecidablePred P] : Decidable (∀ k, P k) :=
  decidable_of_iff (∀ k ∈ all, P k) ⟨fun each k => each k (mem_all k), fun each k _ => each k⟩

/-- `f.tables[kind]`: the kind whose table a name selects. -/
def ofName? (kind : String) : Option TableKind :=
  all.find? (·.name == kind)

theorem ofName?_name (k : TableKind) : ofName? k.name = some k := by
  cases k <;> decide

end TableKind

/-- `table.has(number)`. -/
def freezerTable.has (t : freezerTable) (number : Nat) : Bool :=
  t.items > number

/-- `freezer`, without its file lock: the count of frozen blocks and the tables. -/
structure freezer where
  frozen : Nat
  tables : TableKind → freezerTable

/-- The errors of the freezer: its own two, and those of a table. -/
inductive AncientError
  | errUnknownTable
  | errOutOrderInsertion
  | table (err : FreezerError)
  deriving DecidableEq, Repr

/-- The blobs of one block, by kind. -/
def row (hash header body receipts ebakusSnapshot : List UInt8) : TableKind → List UInt8
  | .headers => header
  | .hashes => hash
  | .bodies => body
  | .receipts => receipts
  | .snapshots => ebakusSnapshot

namespace freezer

/-- `HasAncient`. -/
def HasAncient (f : freezer) (kind : String) (number : Nat) : Bool :=
  match TableKind.ofName? kind with
  | some k => (f.tables k).has number
  | none => false

/-- `Ancient`. -/
def Ancient (codec : Snappy) (f : freezer) (kind : String) (number : Nat) :
    Except AncientError (List UInt8) :=
  match TableKind.ofName? kind with
  | some k => ((f.tables k).Retrieve codec number).mapError .table
  | none => .error .errUnknownTable

/-- `Ancients`. -/
def Ancients (f : freezer) : Nat :=
  f.frozen

/-- The first loop of `repair`: the fewest items of a table, from `math.MaxUint64`. -/
def minItems (tables : TableKind → freezerTable) (order : List TableKind) : Nat :=
  order.foldl (fun min k => if min > (tables k).items then (tables k).items else min) (2 ^ 64 - 1)

/-- `repair`: every table cut to the fewest items of any, in the order `order`. -/
def repair (order : List TableKind) (f : freezer) : Except AncientError Unit × freezer :=
  let min := minItems f.tables order
  match updateEach (fun _ t => t.truncate min) f.tables order with
  | (tables, none) => (.ok (), { frozen := min, tables })
  | (tables, some err) => (.error (.table err), { f with tables })

/-- `AppendAncient`. -/
def AppendAncient (codec : Snappy) (order : List TableKind) (f : freezer) (number : Nat)
    (hash header body receipts ebakusSnapshot : List UInt8) : Except AncientError Unit × freezer :=
  if f.frozen ≠ number then (.error .errOutOrderInsertion, f)
  else
    let blobs := row hash header body receipts ebakusSnapshot
    match updateEach (fun k t => t.Append codec f.frozen (blobs k)) f.tables
        [.hashes, .headers, .bodies, .receipts, .snapshots] with
    | (tables, none) => (.ok (), { frozen := f.frozen + 1, tables })
    | (tables, some err) =>
      -- the deferred `repair`; `log.Crit` ends the process when it fails
      (.error (.table err), (repair order { f with tables }).2)

/-- `TruncateAncients`, visiting the tables in the order `order`. -/
def TruncateAncients (order : List TableKind) (f : freezer) (items : Nat) :
    Except AncientError Unit × freezer :=
  if f.frozen ≤ items then (.ok (), f)
  else
    match updateEach (fun _ t => t.truncate items) f.tables order with
    | (tables, none) => (.ok (), { frozen := items, tables })
    | (tables, some err) => (.error (.table err), { f with tables })

end freezer

/-- The freezer `newFreezer` builds in an empty directory before its repair:
each table opened by `newTable` with its snappy setting. -/
def freshFreezer : freezer where
  frozen := 0
  tables k := newTable (2 * 1000 * 1000 * 1000) k.noSnappy

/-- `newFreezer` in an empty directory. -/
def newFreezer (order : List TableKind) : Except AncientError freezer :=
  match freshFreezer.repair order with
  | (.ok (), f) => .ok f
  | (.error err, _) => .error err

/-! ### Runs -/

/-- The calls of a run. -/
inductive AncientOp
  | AppendAncient (number : Nat) (hash header body receipts ebakusSnapshot : List UInt8)
  | TruncateAncients (items : Nat)

namespace freezer

/-- One call: what it returns, and the freezer it leaves. -/
def step (codec : Snappy) (order : List TableKind) (f : freezer) :
    AncientOp → Except AncientError Unit × freezer
  | .AppendAncient number hash header body receipts ebakusSnapshot =>
    f.AppendAncient codec order number hash header body receipts ebakusSnapshot
  | .TruncateAncients items => f.TruncateAncients order items

/-- A run of calls, each made on the freezer the last one left, whatever it returned. -/
def run (codec : Snappy) (order : List TableKind) : freezer → List AncientOp → freezer
  | f, [] => f
  | f, op :: ops => (f.step codec order op).2.run codec order ops

/-- What the calls of a run return, call by call. -/
def replies (codec : Snappy) (order : List TableKind) : freezer → List AncientOp → List (Except AncientError Unit)
  | _, [] => []
  | f, op :: ops => (f.step codec order op).1 :: (f.step codec order op).2.replies codec order ops

/-- The freezers a run passes through. -/
def trace (codec : Snappy) (order : List TableKind) : freezer → List AncientOp → List freezer
  | _, [] => []
  | f, op :: ops => (f.step codec order op).2 :: (f.step codec order op).2.trace codec order ops

end freezer

namespace AncientOp

/-- Every blob the call appends is stored in fewer than `2^32` bytes. -/
def Short (codec : Snappy) : AncientOp → Prop
  | AppendAncient _ hash header body receipts ebakusSnapshot =>
    ∀ k, (stored codec k.noSnappy (row hash header body receipts ebakusSnapshot k)).length < 2 ^ 32
  | TruncateAncients _ => True

instance decidableShort (codec : Snappy) (op : AncientOp) : Decidable (op.Short codec) :=
  match op with
  | AppendAncient .. => TableKind.decidableForall _
  | TruncateAncients _ => instDecidableTrue

/-- The blocks a call leaves of `blocks`: an append numbered next adds its
block, and a truncation keeps a prefix. -/
def apply (blocks : List (TableKind → List UInt8)) : AncientOp → List (TableKind → List UInt8)
  | AppendAncient number hash header body receipts ebakusSnapshot =>
    if number = blocks.length then blocks ++ [row hash header body receipts ebakusSnapshot] else blocks
  | TruncateAncients items => blocks.take items

/-- What a call returns to a freezer of `blocks`: only an append out of order fails. -/
def result (blocks : List (TableKind → List UInt8)) : AncientOp → Except AncientError Unit
  | AppendAncient number .. => if number = blocks.length then .ok () else .error .errOutOrderInsertion
  | TruncateAncients _ => .ok ()

/-- What the calls of a run return to a freezer of `blocks`, call by call. -/
def replies : List (TableKind → List UInt8) → List AncientOp → List (Except AncientError Unit)
  | _, [] => []
  | blocks, op :: ops => op.result blocks :: replies (op.apply blocks) ops

end AncientOp

/-! ### The tables' loops -/

/-- `truncate` to at least the table's items returns the table as it is. -/
theorem freezerTable.truncate_of_le {t : freezerTable} {items : Nat} (within : t.items ≤ items) :
    t.truncate items = .ok t := by
  simp only [freezerTable.truncate, within, if_true]
  rfl

/-- `truncate` keeps a table's first blobs, for any count. -/
theorem Holds.truncate_ok {codec : Snappy} {t : freezerTable} {blobs : List (List UInt8)}
    {entries : List indexEntry} (holds : Holds codec t blobs entries) (k : Nat) :
    ∃ t', t.truncate k = .ok t' ∧ t'.noCompression = t.noCompression ∧
      ∃ entries', Holds codec t' (blobs.take k) entries' := by
  by_cases less : k < blobs.length
  · obtain ⟨⟨f, o⟩, found⟩ := holds.entry_exists (Nat.le_of_lt less)
    exact ⟨_, holds.truncate_eq less found, rfl, _, holds.truncate less found⟩
  · -- nothing to cut: the table is returned as it is
    refine ⟨t, freezerTable.truncate_of_le (holds.items_eq ▸ Nat.le_of_not_lt less), rfl, entries, ?_⟩
    rwa [List.take_of_length_le (Nat.le_of_not_lt less)]

namespace freezer

/-- The fold of `minItems`, from any start, ends at most at the start and at
every table's items, and at the start or at some table's items. -/
theorem foldl_min_spec (tables : TableKind → freezerTable) (order : List TableKind) (init : Nat) :
    order.foldl (fun min k => if min > (tables k).items then (tables k).items else min) init ≤ init ∧
      (∀ k ∈ order,
        order.foldl (fun min k => if min > (tables k).items then (tables k).items else min) init ≤
          (tables k).items) ∧
      (order.foldl (fun min k => if min > (tables k).items then (tables k).items else min) init = init ∨
        ∃ k ∈ order,
          order.foldl (fun min k => if min > (tables k).items then (tables k).items else min) init =
            (tables k).items) := by
  induction order generalizing init with
  | nil => exact ⟨Nat.le_refl _, fun _ absent => absurd absent List.not_mem_nil, .inl rfl⟩
  | cons k order ih =>
    obtain ⟨le_next, le_items, reached⟩ :=
      ih (if init > (tables k).items then (tables k).items else init)
    -- the step keeps the smaller of the start and the first table's items
    have next_le : (if init > (tables k).items then (tables k).items else init) ≤ init := by
      split <;> omega
    have next_le' : (if init > (tables k).items then (tables k).items else init) ≤ (tables k).items := by
      split <;> omega
    simp only [List.foldl_cons, List.mem_cons, forall_eq_or_imp, exists_eq_or_imp]
    refine ⟨Nat.le_trans le_next next_le, ⟨Nat.le_trans le_next next_le', le_items⟩, ?_⟩
    rcases reached with same | ⟨k', mem, same⟩
    · rw [same]
      split
      · exact .inr (.inl rfl)
      · exact .inl rfl
    · exact .inr (.inr ⟨k', mem, same⟩)

theorem minItems_le (tables : TableKind → freezerTable) {order : List TableKind} {k : TableKind}
    (mem : k ∈ order) : minItems tables order ≤ (tables k).items :=
  (foldl_min_spec tables order _).2.1 k mem

theorem minItems_eq (tables : TableKind → freezerTable) (order : List TableKind) :
    minItems tables order = 2 ^ 64 - 1 ∨ ∃ k ∈ order, minItems tables order = (tables k).items :=
  (foldl_min_spec tables order _).2.2

end freezer

/-! ### What the freezer stores -/

/-- The first `m` blocks of tables that hold `blobs`, kind by kind. -/
def rowsOf (blobs : TableKind → List (List UInt8)) (m : Nat) : List (TableKind → List UInt8) :=
  (List.range m).map fun i k => (blobs k).getD i []

theorem length_rowsOf (blobs : TableKind → List (List UInt8)) (m : Nat) : (rowsOf blobs m).length = m := by
  rw [rowsOf, List.length_map, List.length_range]

theorem map_rowsOf {blobs : TableKind → List (List UInt8)} {m : Nat} {k : TableKind}
    (within : m ≤ (blobs k).length) : (rowsOf blobs m).map (· k) = (blobs k).take m := by
  apply List.ext_getElem
  · rw [List.length_map, length_rowsOf, List.length_take]
    omega
  · intro i inside _
    have present : i < (blobs k).length := by
      rw [List.length_map, length_rowsOf] at inside
      omega
    simp [rowsOf, List.getElem?_eq_getElem present]

/-- The freezer stores `blocks`: it counts them, and each table holds its
kind's blobs of them, with its kind's snappy setting. -/
structure freezer.Stores (codec : Snappy) (f : freezer) (blocks : List (TableKind → List UInt8)) :
    Prop where
  frozen_eq : f.frozen = blocks.length
  holds : ∀ k, ∃ entries, Holds codec (f.tables k) (blocks.map (· k)) entries
  noCompression_eq : ∀ k, (f.tables k).noCompression = k.noSnappy

namespace freezer.Stores

variable {codec : Snappy} {f : freezer} {blocks : List (TableKind → List UInt8)}

/-- `Ancient` returns each kind's blob of each stored block, and an error past them. -/
theorem Ancient_eq (stores : f.Stores codec blocks) (lossless : ∀ b, codec.Decode (codec.Encode b) = some b)
    (k : TableKind) (i : Nat) :
    f.Ancient codec k.name i =
      if h : i < blocks.length then .ok (blocks[i] k) else .error (.table .errOutOfBounds) := by
  obtain ⟨entries, holds⟩ := stores.holds k
  rw [freezer.Ancient, TableKind.ofName?_name]
  simp only [holds.Retrieve_eq lossless, List.length_map, List.getElem_map]
  by_cases inside : i < blocks.length
  · rw [dif_pos inside, dif_pos inside]
    rfl
  · rw [dif_neg inside, dif_neg inside]
    rfl

/-- `HasAncient` says whether a block is stored. -/
theorem HasAncient_eq (stores : f.Stores codec blocks) (k : TableKind) (i : Nat) :
    f.HasAncient k.name i = decide (i < blocks.length) := by
  obtain ⟨entries, holds⟩ := stores.holds k
  simp only [freezer.HasAncient, TableKind.ofName?_name, freezerTable.has, holds.items_eq, List.length_map]

/-- An append numbered next appends its block to every table; the tables
still hold their blobs as long as their head file numbers fit the index. -/
theorem append_next (stores : f.Stores codec blocks) (order : List TableKind)
    {hash header body receipts ebakusSnapshot : List UInt8}
    (short : ∀ k, (stored codec k.noSnappy (row hash header body receipts ebakusSnapshot k)).length < 2 ^ 32) :
    ∃ f', f.AppendAncient codec order blocks.length hash header body receipts ebakusSnapshot = (.ok (), f') ∧
      ((∀ k, (f'.tables k).headId.toNat < 2 ^ 16) →
        f'.Stores codec (blocks ++ [row hash header body receipts ebakusSnapshot])) := by
  have every : ∀ k, k ∈ [TableKind.hashes, .headers, .bodies, .receipts, .snapshots] := by
    intro k
    cases k <;> decide
  -- each table takes its blob at the count of stored blocks
  obtain ⟨tables, ran, done⟩ := updateEach_of_ok_and
    (fun k t => t.Append codec f.frozen (row hash header body receipts ebakusSnapshot k)) f.tables
    (fun k t => t.noCompression = k.noSnappy ∧ (t.headId.toNat < 2 ^ 16 →
      ∃ entries, Holds codec t ((blocks ++ [row hash header body receipts ebakusSnapshot]).map (· k)) entries))
    (show [TableKind.hashes, .headers, .bodies, .receipts, .snapshots].Nodup by decide) fun k _ => by
      obtain ⟨entries, holds⟩ := stores.holds k
      have count : (f.tables k).items = f.frozen := by
        rw [holds.items_eq, List.length_map, stores.frozen_eq]
      obtain ⟨t, appended, same, keeps⟩ := holds.append _ (stores.noCompression_eq k ▸ short k)
      refine ⟨t, count ▸ appended, same.trans (stores.noCompression_eq k), fun few => ?_⟩
      rw [List.map_append, List.map_singleton]
      exact ⟨_, keeps few⟩
  refine ⟨{ frozen := f.frozen + 1, tables }, ?_,
    fun few => ⟨?frozen, fun k => (done k (every k)).2 (few k), fun k => (done k (every k)).1⟩⟩
  · simp only [AppendAncient, stores.frozen_eq, ne_eq, not_true_eq_false, if_false]
    rw [← stores.frozen_eq, ran]
  case frozen =>
    rw [List.length_append, List.length_singleton, stores.frozen_eq]

/-- A truncation visiting every table once keeps a prefix of the blocks. -/
theorem truncate_any (stores : f.Stores codec blocks) {order : List TableKind} (distinct : order.Nodup)
    (covers : ∀ k, k ∈ order) (items : Nat) :
    ∃ f', f.TruncateAncients order items = (.ok (), f') ∧ f'.Stores codec (blocks.take items) := by
  by_cases within : f.frozen ≤ items
  · -- nothing to cut
    refine ⟨f, if_pos within, ?_⟩
    rwa [List.take_of_length_le (stores.frozen_eq ▸ within)]
  · obtain ⟨tables, ran, done⟩ := updateEach_of_ok_and (fun _ t => t.truncate items) f.tables
      (fun k t => t.noCompression = k.noSnappy ∧ ∃ entries, Holds codec t ((blocks.take items).map (· k)) entries)
      distinct fun k _ => by
        obtain ⟨entries, holds⟩ := stores.holds k
        obtain ⟨t, cut, same, kept⟩ := holds.truncate_ok items
        rw [List.map_take]
        exact ⟨t, cut, same.trans (stores.noCompression_eq k), kept⟩
    refine ⟨{ frozen := items, tables }, ?_,
      ⟨?frozen, fun k => (done k (covers k)).2, fun k => (done k (covers k)).1⟩⟩
    · rw [TruncateAncients, if_neg within, ran]
    case frozen =>
      show items = (blocks.take items).length
      rw [List.length_take, ← stores.frozen_eq]
      omega

/-- One call on a freezer that stores `blocks` returns what `AncientOp.result`
says and stores the blocks the call leaves, as long as every head file number
fits the index. -/
theorem step (stores : f.Stores codec blocks) {order : List TableKind} (distinct : order.Nodup)
    (covers : ∀ k, k ∈ order) (op : AncientOp) (short : op.Short codec)
    (few : ∀ k, ((f.step codec order op).2.tables k).headId.toNat < 2 ^ 16) :
    (f.step codec order op).1 = op.result blocks ∧ (f.step codec order op).2.Stores codec (op.apply blocks) := by
  cases op with
  | AppendAncient number hash header body receipts ebakusSnapshot =>
    by_cases next : number = blocks.length
    · subst next
      obtain ⟨f', appended, keeps⟩ := stores.append_next order short
      rw [freezer.step, appended] at few ⊢
      refine ⟨?_, ?_⟩
      · rw [AncientOp.result, if_pos rfl]
      · rw [AncientOp.apply, if_pos rfl]
        exact keeps few
    · -- out of order: refused, nothing changes
      have refused : f.AppendAncient codec order number hash header body receipts ebakusSnapshot =
          (.error .errOutOrderInsertion, f) :=
        if_pos (stores.frozen_eq ▸ Ne.symm next)
      rw [freezer.step, refused]
      refine ⟨?_, ?_⟩
      · rw [AncientOp.result, if_neg next]
      · rw [AncientOp.apply, if_neg next]
        exact stores
  | TruncateAncients items =>
    obtain ⟨f', cut, kept⟩ := stores.truncate_any distinct covers items
    rw [freezer.step, cut]
    exact ⟨rfl, kept⟩

/-- A run of calls returns what `AncientOp.replies` says, call by call, and
keeps a freezer storing the blocks the calls leave. -/
theorem run (stores : f.Stores codec blocks) {order : List TableKind} (distinct : order.Nodup)
    (covers : ∀ k, k ∈ order) (ops : List AncientOp) (short : ∀ op ∈ ops, op.Short codec)
    (few : ∀ s ∈ f.trace codec order ops, ∀ k, (s.tables k).headId.toNat < 2 ^ 16) :
    f.replies codec order ops = AncientOp.replies blocks ops ∧
      (f.run codec order ops).Stores codec (ops.foldl AncientOp.apply blocks) := by
  induction ops generalizing f blocks with
  | nil => exact ⟨rfl, stores⟩
  | cons op ops ih =>
    rw [freezer.trace] at few
    obtain ⟨replied, kept⟩ :=
      stores.step distinct covers op (short op List.mem_cons_self) (few _ List.mem_cons_self)
    obtain ⟨rest, after⟩ := ih kept (fun op' mem => short op' (List.mem_cons_of_mem _ mem))
      (fun s mem => few s (List.mem_cons_of_mem _ mem))
    refine ⟨?_, after⟩
    rw [freezer.replies, AncientOp.replies, replied, rest]

end freezer.Stores


/-! ### Repair -/

/-- `repair`, visiting every table once, cuts every table to the fewest blobs
any of them holds and sets the count to it; the freezer then stores the blocks
the tables share. Each table counts its items in a `uint64`. -/
theorem repair_cuts (codec : Snappy) {order : List TableKind} (distinct : order.Nodup)
    (covers : ∀ k, k ∈ order) (f : freezer) (blobs : TableKind → List (List UInt8))
    (holds : ∀ k, ∃ entries, Holds codec (f.tables k) (blobs k) entries)
    (setting : ∀ k, (f.tables k).noCompression = k.noSnappy) (fits : ∀ k, (blobs k).length < 2 ^ 64) :
    ∃ f', f.repair order = (.ok (), f') ∧ (∀ k, f'.frozen ≤ (blobs k).length) ∧
      (∃ k, f'.frozen = (blobs k).length) ∧ f'.Stores codec (rowsOf blobs f'.frozen) := by
  have count : ∀ k, (f.tables k).items = (blobs k).length := fun k =>
    (holds k).elim fun _ holds => holds.items_eq
  have le : ∀ k, freezer.minItems f.tables order ≤ (blobs k).length := fun k =>
    count k ▸ freezer.minItems_le f.tables (covers k)
  -- the count starts at `math.MaxUint64`, which every table's count is below
  have reached : ∃ k, freezer.minItems f.tables order = (blobs k).length := by
    rcases freezer.minItems_eq f.tables order with top | ⟨k, _, same⟩
    · refine ⟨.headers, Nat.le_antisymm (le .headers) ?_⟩
      have := fits .headers
      omega
    · exact ⟨k, count k ▸ same⟩
  obtain ⟨tables, ran, done⟩ := updateEach_of_ok_and (fun _ t => t.truncate (freezer.minItems f.tables order))
    f.tables (fun k t => t.noCompression = k.noSnappy ∧
      ∃ entries, Holds codec t ((rowsOf blobs (freezer.minItems f.tables order)).map (· k)) entries)
    distinct fun k _ => by
      obtain ⟨entries, holds⟩ := holds k
      obtain ⟨t, cut, same, kept⟩ := holds.truncate_ok (freezer.minItems f.tables order)
      rw [map_rowsOf (le k)]
      exact ⟨t, cut, same.trans (setting k), kept⟩
  refine ⟨{ frozen := freezer.minItems f.tables order, tables }, ?_, le, reached,
    ⟨(length_rowsOf _ _).symm, fun k => (done k (covers k)).2, fun k => (done k (covers k)).1⟩⟩
  simp only [freezer.repair, ran]

/-- A crash after the hash of block `0` was frozen and before the rest: the
hashes table holds a blob the other tables lack. -/
theorem repair_cuts_after_crash :
    let head := newTable (2 * 1000 * 1000 * 1000) true
    let f : freezer :=
      { frozen := 0, tables := Function.update freshFreezer.tables .hashes
          ((head.Append ⟨id, some⟩ 0 [1]).toOption.getD head) }
    let blobs : TableKind → List (List UInt8) := Function.update (fun _ => []) .hashes [[1]]
    (∀ k, ∃ entries, Holds ⟨id, some⟩ (f.tables k) (blobs k) entries) ∧
      ∃ f', f.repair TableKind.all = (.ok (), f') ∧ (∀ k, f'.frozen ≤ (blobs k).length) ∧
        (∃ k, f'.frozen = (blobs k).length) ∧ f'.Stores ⟨id, some⟩ (rowsOf blobs f'.frozen) := by
  intro head f blobs
  have holds : ∀ k, ∃ entries, Holds ⟨id, some⟩ (f.tables k) (blobs k) entries := by
    intro k
    by_cases hashes : k = .hashes
    · subst hashes
      obtain ⟨t, appended, -, keeps⟩ := (newTable_holds ⟨id, some⟩ (2 * 1000 * 1000 * 1000) true).append [1]
        (by decide)
      have found : f.tables .hashes = t := by
        simp only [f, Function.update_self]
        rw [show head.Append ⟨id, some⟩ 0 [1] = .ok t from appended]
        rfl
      have small : (f.tables .hashes).headId.toNat < 2 ^ 16 := by decide
      rw [found] at small ⊢
      exact ⟨_, keeps small⟩
    · simp only [f, blobs, Function.update_of_ne hashes]
      exact ⟨_, newTable_holds _ _ _⟩
  exact ⟨holds, repair_cuts ⟨id, some⟩ (by decide) TableKind.mem_all f blobs holds (by decide) (by decide)⟩

/-- The fresh tables store no block. -/
theorem freshFreezer_stores (codec : Snappy) : freshFreezer.Stores codec [] where
  frozen_eq := rfl
  holds k := ⟨_, newTable_holds codec _ k.noSnappy⟩
  noCompression_eq _ := rfl

/-- `newFreezer` in an empty directory returns the fresh tables: its repair
cuts nothing. -/
theorem newFreezer_eq {order : List TableKind} (covers : ∀ k, k ∈ order) : newFreezer order = .ok freshFreezer := by
  have empty : freezer.minItems freshFreezer.tables order = 0 :=
    Nat.le_zero.mp (freezer.minItems_le freshFreezer.tables (covers .headers))
  have kept : updateEach (fun _ t => t.truncate 0) freshFreezer.tables order = (freshFreezer.tables, none) :=
    updateEach_of_unchanged _ _ fun _ _ => freezerTable.truncate_of_le (Nat.le_refl 0)
  simp only [newFreezer, freezer.repair, empty, kept]
  rfl

/-! ### What a run returns -/

/-- From `newFreezer` in an empty directory, with the tables visited once each
in any order, every run of calls leaves a freezer that counts the blocks the
calls leave, says which of them it has, and returns each kind's blob of each.
This needs a codec that decodes what it encodes, every stored blob shorter
than `2^32` bytes, and every head file number below `2^16`. -/
theorem Ancient_after_run (codec : Snappy) (lossless : ∀ b, codec.Decode (codec.Encode b) = some b)
    {order : List TableKind} (distinct : order.Nodup) (covers : ∀ k, k ∈ order) (ops : List AncientOp)
    (short : ∀ op ∈ ops, op.Short codec)
    (few : ∀ s ∈ freshFreezer.trace codec order ops, ∀ k, (s.tables k).headId.toNat < 2 ^ 16) :
    newFreezer order = .ok freshFreezer ∧
      (freshFreezer.run codec order ops).Ancients = (ops.foldl AncientOp.apply []).length ∧
      (∀ (k : TableKind) i, (freshFreezer.run codec order ops).HasAncient k.name i =
        decide (i < (ops.foldl AncientOp.apply []).length)) ∧
      ∀ (k : TableKind) i, (freshFreezer.run codec order ops).Ancient codec k.name i =
        if h : i < (ops.foldl AncientOp.apply []).length then .ok ((ops.foldl AncientOp.apply [])[i] k)
        else .error (.table .errOutOfBounds) := by
  have stores := ((freshFreezer_stores codec).run distinct covers ops short few).2
  exact ⟨newFreezer_eq covers, stores.frozen_eq, stores.HasAncient_eq, stores.Ancient_eq lossless⟩

/-- A run with one append out of order and one truncation. -/
theorem Ancient_after_run_out_of_order :
    let ops : List AncientOp := [.AppendAncient 0 [1] [2] [3] [4] [5], .AppendAncient 2 [6] [6] [6] [6] [6],
      .AppendAncient 1 [7] [8] [9] [10] [11], .TruncateAncients 1]
    newFreezer TableKind.all = .ok freshFreezer ∧
      (freshFreezer.run ⟨id, some⟩ TableKind.all ops).Ancients = (ops.foldl AncientOp.apply []).length ∧
      (∀ (k : TableKind) i, (freshFreezer.run ⟨id, some⟩ TableKind.all ops).HasAncient k.name i =
        decide (i < (ops.foldl AncientOp.apply []).length)) ∧
      ∀ (k : TableKind) i, (freshFreezer.run ⟨id, some⟩ TableKind.all ops).Ancient ⟨id, some⟩ k.name i =
        if h : i < (ops.foldl AncientOp.apply []).length then .ok ((ops.foldl AncientOp.apply [])[i] k)
        else .error (.table .errOutOfBounds) := by
  intro ops
  exact Ancient_after_run ⟨id, some⟩ (fun _ => rfl) (by decide) TableKind.mem_all ops (by decide) (by decide)

/-- The freezers a run passes through before call `i` are the first `i` of the whole run's. -/
theorem freezer.trace_take (codec : Snappy) (order : List TableKind) :
    ∀ (f : freezer) (ops : List AncientOp) (i : Nat),
      f.trace codec order (ops.take i) = (f.trace codec order ops).take i
  | _, [], _ => by simp [freezer.trace]
  | _, _ :: _, 0 => rfl
  | f, op :: ops, i + 1 => by
    rw [List.take_succ_cons, freezer.trace, freezer.trace, List.take_succ_cons,
      freezer.trace_take codec order _ ops i]

/-- From `newFreezer`, every call of a run returns what the blocks before it
say: an append numbered next succeeds, an append with any other number fails
with `errOutOrderInsertion`, and a truncation succeeds. At every point of the
run, an append numbered other than the count of blocks is refused and leaves
the freezer as it was. This needs every stored blob shorter than `2^32` bytes
and every head file number below `2^16`. -/
theorem replies_after_run (codec : Snappy) {order : List TableKind} (distinct : order.Nodup)
    (covers : ∀ k, k ∈ order) (ops : List AncientOp) (short : ∀ op ∈ ops, op.Short codec)
    (few : ∀ s ∈ freshFreezer.trace codec order ops, ∀ k, (s.tables k).headId.toNat < 2 ^ 16) :
    newFreezer order = .ok freshFreezer ∧ freshFreezer.replies codec order ops = AncientOp.replies [] ops ∧
      ∀ i number (hash header body receipts ebakusSnapshot : List UInt8),
        number ≠ ((ops.take i).foldl AncientOp.apply []).length →
        (freshFreezer.run codec order (ops.take i)).AppendAncient codec order number hash header body receipts
            ebakusSnapshot = (.error .errOutOrderInsertion, freshFreezer.run codec order (ops.take i)) := by
  refine ⟨newFreezer_eq covers, ((freshFreezer_stores codec).run distinct covers ops short few).1, ?_⟩
  intro i number hash header body receipts ebakusSnapshot other
  -- the first `i` calls keep a freezer that counts the blocks they leave
  have stores := ((freshFreezer_stores codec).run distinct covers (ops.take i)
    (fun op mem => short op (List.mem_of_mem_take mem))
    (fun s mem => few s (by rw [freezer.trace_take] at mem; exact List.mem_of_mem_take mem))).2
  exact if_pos (stores.frozen_eq ▸ Ne.symm other)

/-- The replies to a run with one append out of order. -/
theorem replies_after_run_out_of_order :
    let ops : List AncientOp := [.AppendAncient 0 [1] [2] [3] [4] [5], .AppendAncient 2 [6] [6] [6] [6] [6],
      .AppendAncient 1 [7] [8] [9] [10] [11], .TruncateAncients 1]
    newFreezer TableKind.all = .ok freshFreezer ∧
      freshFreezer.replies ⟨id, some⟩ TableKind.all ops = AncientOp.replies [] ops ∧
      ∀ i number (hash header body receipts ebakusSnapshot : List UInt8),
        number ≠ ((ops.take i).foldl AncientOp.apply []).length →
        (freshFreezer.run ⟨id, some⟩ TableKind.all (ops.take i)).AppendAncient ⟨id, some⟩ TableKind.all number
            hash header body receipts ebakusSnapshot =
          (.error .errOutOrderInsertion, freshFreezer.run ⟨id, some⟩ TableKind.all (ops.take i)) := by
  intro ops
  exact replies_after_run ⟨id, some⟩ (by decide) TableKind.mem_all ops (by decide) (by decide)

end Ebakus.Core.Rawdb
