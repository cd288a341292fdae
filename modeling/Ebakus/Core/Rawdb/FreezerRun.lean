/-
# What a freezer table returns

`Holds codec t blobs entries` says that the table `t` stores `blobs` through
the index entries `entries`: the index file is the entries, the first one zero
and the last one the head file and its size; the entries rise by file and then
by offset; and each stored blob lies in the file its closing entry names,
between the offsets `getBounds` reads. `Retrieve` then returns each blob, and
`Append` and `truncate` keep the invariant, with the blobs appended or cut.

The invariant needs two facts of the run: the head file number stays below
`2^16`, as the index keeps it in two bytes, and every stored blob is shorter
than `2^32` bytes, as `Append` measures it as a `uint32`. Without the second,
a blob is lost.
-/

import Ebakus.Core.Rawdb.FreezerTable

namespace Ebakus.Core.Rawdb

open freezerTable

/-! ### The invariant -/

/-- Index entries in the order the table writes them: by file, then by offset. -/
def EntryLe (e e' : indexEntry) : Prop :=
  e.filenum.toNat < e'.filenum.toNat ∨ (e.filenum = e'.filenum ∧ e.offset.toNat ≤ e'.offset.toNat)

/-- Where `getBounds` starts the blob between the entries `e` and `e'`. -/
def startOf (e e' : indexEntry) : Nat :=
  if e.filenum ≠ e'.filenum then 0 else e.offset.toNat

/-- The bytes `s` lie in the file `e'` names, from `startOf e e'` up to `e'.offset`. -/
def Placed (disk : UInt32 → Option (List UInt8)) (e e' : indexEntry) (s : List UInt8) : Prop :=
  startOf e e' + s.length = e'.offset.toNat ∧ e'.offset.toNat ≤ ((disk e'.filenum).getD []).length ∧
    (((disk e'.filenum).getD []).drop (startOf e e')).take s.length = s

/-- The table `t` stores `blobs` through the index entries `entries`. -/
structure Holds (codec : Snappy) (t : freezerTable) (blobs : List (List UInt8)) (entries : List indexEntry) :
    Prop where
  items_eq : t.items = blobs.length
  itemOffset_eq : t.itemOffset = 0
  index_eq : t.index = (entries.map indexEntry.marshallBinary).flatten
  length_eq : entries.length = blobs.length + 1
  first : entries[0]? = some ⟨0, 0⟩
  last : entries[blobs.length]? = some ⟨t.headId, t.headBytes⟩
  sorted : entries.Pairwise EntryLe
  small : t.headId.toNat < 2 ^ 16
  head_length : ((t.disk t.headId).getD []).length = t.headBytes.toNat
  opened : ∀ e ∈ entries, t.files e.filenum = true
  closed : ∀ g, t.files g = true → g.toNat ≤ t.headId.toNat
  exists_of_open : ∀ g, t.files g = true → (t.disk g).isSome
  placed : ∀ i e e' b, entries[i]? = some e → entries[i + 1]? = some e' → blobs[i]? = some b →
    Placed t.disk e e' (stored codec t.noCompression b)

theorem EntryLe.refl (e : indexEntry) : EntryLe e e :=
  .inr ⟨rfl, Nat.le_refl _⟩

theorem EntryLe.trans {e e' e'' : indexEntry} (first : EntryLe e e') (second : EntryLe e' e'') : EntryLe e e'' := by
  unfold EntryLe at *
  rcases first with lt | ⟨same, le⟩ <;> rcases second with lt' | ⟨same', le'⟩
  · exact .inl (Nat.lt_trans lt lt')
  · exact .inl (same' ▸ lt)
  · exact .inl (same ▸ lt')
  · exact .inr ⟨same.trans same', Nat.le_trans le le'⟩

theorem EntryLe.filenum_le {e e' : indexEntry} (le : EntryLe e e') : e.filenum.toNat ≤ e'.filenum.toNat := by
  rcases le with lt | ⟨same, _⟩
  · exact Nat.le_of_lt lt
  · rw [same]

theorem EntryLe.offset_le {e e' : indexEntry} (le : EntryLe e e') (same : e.filenum = e'.filenum) :
    e.offset.toNat ≤ e'.offset.toNat := by
  rcases le with lt | ⟨_, le⟩
  · rw [same] at lt
    exact absurd lt (Nat.lt_irrefl _)
  · exact le

/-- Every entry comes no later than the last one. -/
theorem le_of_pairwise {entries : List indexEntry} (sorted : entries.Pairwise EntryLe) {n : Nat} {last : indexEntry}
    (at_last : entries[n]? = some last) (size : entries.length = n + 1) : ∀ e ∈ entries, EntryLe e last := by
  intro e mem
  obtain ⟨j, within, rfl⟩ := List.mem_iff_getElem.mp mem
  obtain ⟨inside, found⟩ := List.getElem?_eq_some_iff.mp at_last
  by_cases same : j = n
  · subst same
    rw [found]
    exact EntryLe.refl _
  · rw [← found]
    exact List.pairwise_iff_getElem.mp sorted j n within inside (by omega)

/-- A placement only depends on the file up to the closing offset. -/
theorem Placed.congr {disk disk' : UInt32 → Option (List UInt8)} {e e' : indexEntry} {s : List UInt8}
    (place : Placed disk e e' s)
    (same : ((disk' e'.filenum).getD []).take e'.offset.toNat = ((disk e'.filenum).getD []).take e'.offset.toNat)
    (long : e'.offset.toNat ≤ ((disk' e'.filenum).getD []).length) : Placed disk' e e' s := by
  obtain ⟨ends, within, bytes⟩ := place
  refine ⟨ends, long, ?_⟩
  have prefix_of : ∀ file : List UInt8, (file.drop (startOf e e')).take s.length =
      (file.take e'.offset.toNat).drop (startOf e e') := by
    intro file
    rw [List.drop_take, ← ends, Nat.add_sub_cancel_left]
  rw [prefix_of, same, ← prefix_of, bytes]

/-- Writing another file keeps a placement. -/
theorem Placed.update_of_ne {disk : UInt32 → Option (List UInt8)} {e e' : indexEntry} {s : List UInt8}
    (place : Placed disk e e' s) {g : UInt32} (other : e'.filenum ≠ g) (content : Option (List UInt8)) :
    Placed (Function.update disk g content) e e' s := by
  unfold Placed
  rwa [Function.update_of_ne other]

/-- Writing at the end of a file keeps a placement. -/
theorem Placed.extend {disk : UInt32 → Option (List UInt8)} {e e' : indexEntry} {s : List UInt8}
    (place : Placed disk e e' s) (g : UInt32) (more : List UInt8) :
    Placed (Function.update disk g (some ((disk g).getD [] ++ more))) e e' s := by
  by_cases here : e'.filenum = g
  · subst here
    refine place.congr ?_ ?_
    · rw [Function.update_self, Option.getD_some, List.take_append_of_le_length place.2.1]
    · rw [Function.update_self, Option.getD_some, List.length_append]
      exact Nat.le_add_right_of_le place.2.1
  · exact place.update_of_ne here _

@[simp]
theorem length_truncateFile (file : List UInt8) (size : Nat) : (truncateFile file size).length = size := by
  unfold truncateFile
  split <;> simp <;> omega

/-- Cutting a file at or after the closing offset keeps a placement. -/
theorem Placed.truncate {disk : UInt32 → Option (List UInt8)} {e e' : indexEntry} {s : List UInt8}
    (place : Placed disk e e' s) (g : UInt32) {size : Nat} (after : e'.filenum = g → e'.offset.toNat ≤ size) :
    Placed (Function.update disk g (some (truncateFile ((disk g).getD []) size))) e e' s := by
  by_cases here : e'.filenum = g
  · have within := after here
    have long := place.2.1
    subst here
    refine place.congr ?_ (by rw [Function.update_self, Option.getD_some, length_truncateFile]; exact within)
    rw [Function.update_self, Option.getD_some]
    unfold truncateFile
    split
    · rw [List.take_take, Nat.min_eq_left within]
    · rw [List.take_append_of_le_length long]
  · exact place.update_of_ne here _

/-- A sum that does not wrap, as the rotation test leaves it. -/
theorem toNat_add_of_no_wrap {a b : UInt32} (fits : ¬a + b < b) : (a + b).toNat = a.toNat + b.toNat := by
  rw [UInt32.lt_iff_toNat_lt, UInt32.toNat_add] at fits
  rw [UInt32.toNat_add]
  have := a.toNat_lt
  have := b.toNat_lt
  omega

/-- The entries and blobs after an append: an old blob between old entries, or
the new blob between the old last entry and the new one. -/
theorem getElem?_append_cases {entries : List indexEntry} {blobs : List (List UInt8)}
    (size : entries.length = blobs.length + 1) {new e e' : indexEntry} {blob b : List UInt8} {i : Nat}
    (found : (entries ++ [new])[i]? = some e) (found' : (entries ++ [new])[i + 1]? = some e')
    (item : (blobs ++ [blob])[i]? = some b) :
    (entries[i]? = some e ∧ entries[i + 1]? = some e' ∧ blobs[i]? = some b) ∨
      (entries[blobs.length]? = some e ∧ e' = new ∧ b = blob) := by
  have within := (List.getElem?_eq_some_iff.mp item).1
  rw [List.length_append, List.length_singleton] at within
  by_cases old : i < blobs.length
  · rw [List.getElem?_append_left (by omega)] at found found'
    rw [List.getElem?_append_left old] at item
    exact .inl ⟨found, found', item⟩
  · have last : i = blobs.length := by omega
    subst last
    rw [List.getElem?_append_left (by omega)] at found
    rw [List.getElem?_append_right (by omega), size, Nat.sub_self] at found'
    rw [List.getElem?_append_right (Nat.le_refl _), Nat.sub_self] at item
    simp only [List.getElem?_cons_zero, Option.some.injEq] at found' item
    exact .inr ⟨found, found'.symm, item.symm⟩

theorem getElem?_append_last {entries : List indexEntry} {n : Nat} (size : entries.length = n + 1) (new : indexEntry) :
    (entries ++ [new])[n + 1]? = some new := by
  rw [List.getElem?_append_right (by omega), size, Nat.sub_self]
  rfl

namespace Holds

variable {codec : Snappy} {t : freezerTable} {blobs : List (List UInt8)} {entries : List indexEntry}

theorem le_last (holds : Holds codec t blobs entries) : ∀ e ∈ entries, EntryLe e ⟨t.headId, t.headBytes⟩ :=
  le_of_pairwise holds.sorted holds.last holds.length_eq

/-- Every entry names a file no later than the head, so its number fits the index. -/
theorem filenum_le (holds : Holds codec t blobs entries) {e : indexEntry} (mem : e ∈ entries) :
    e.filenum.toNat ≤ t.headId.toNat := by
  rcases holds.le_last e mem with lt | ⟨same, _⟩
  · exact Nat.le_of_lt lt
  · rw [same]

theorem filenum_small (holds : Holds codec t blobs entries) {e : indexEntry} (mem : e ∈ entries) :
    e.filenum.toNat < 2 ^ 16 :=
  Nat.lt_of_le_of_lt (holds.filenum_le mem) holds.small

/-- `getBounds` reads the entries around a blob. -/
theorem getBounds_eq (holds : Holds codec t blobs entries) {i : Nat} {e e' : indexEntry}
    (found : entries[i]? = some e) (found' : entries[i + 1]? = some e') :
    t.getBounds i = .ok (if e.filenum ≠ e'.filenum then 0 else e.offset, e'.offset, e'.filenum) := by
  have small := holds.filenum_small (List.mem_of_getElem? found)
  have small' := holds.filenum_small (List.mem_of_getElem? found')
  simp only [getBounds, holds.index_eq, readAt_marshallBinary found, readAt_marshallBinary found',
    unmarshalBinary_marshallBinary small, unmarshalBinary_marshallBinary small', bind, Except.bind, pure,
    Except.pure]
  split <;> simp_all

/-- A blob the table holds reads back from where it lies. -/
theorem readAt_placed {disk : UInt32 → Option (List UInt8)} {e e' : indexEntry} {s : List UInt8}
    (place : Placed disk e e' s) :
    readAt ((disk e'.filenum).getD []) (startOf e e') s.length = .ok s := by
  obtain ⟨ends, within, bytes⟩ := place
  unfold readAt
  split
  · next empty => rw [List.length_eq_zero_iff.mp empty]
  · rw [if_pos (by omega), bytes]

/-- Each blob has the entries on both sides of it. -/
theorem entry_exists (holds : Holds codec t blobs entries) {i : Nat} (within : i ≤ blobs.length) :
    ∃ e, entries[i]? = some e :=
  ⟨_, List.getElem?_eq_getElem (by rw [holds.length_eq]; omega)⟩

/-- `Retrieve` returns each blob the table holds, and `errOutOfBounds` past them. -/
theorem Retrieve_eq (holds : Holds codec t blobs entries)
    (lossless : ∀ b, codec.Decode (codec.Encode b) = some b) (i : Nat) :
    t.Retrieve codec i = if h : i < blobs.length then .ok blobs[i] else .error .errOutOfBounds := by
  split
  · next inside =>
    obtain ⟨e, found⟩ := holds.entry_exists (Nat.le_of_lt inside)
    obtain ⟨e', found'⟩ := holds.entry_exists inside
    have place := holds.placed i e e' blobs[i] found found' (List.getElem?_eq_getElem inside)
    have ends := place.1
    -- the code's start offset, and the length it reads
    have start : (if e.filenum ≠ e'.filenum then 0 else e.offset : UInt32).toNat = startOf e e' := by
      unfold startOf
      split <;> rfl
    have size : (e'.offset - (if e.filenum ≠ e'.filenum then 0 else e.offset)).toNat =
        (stored codec t.noCompression blobs[i]).length := by
      rw [UInt32.toNat_sub_of_le _ _ (UInt32.le_iff_toNat_le.mpr (by rw [start]; omega)), start]
      omega
    simp only [Retrieve, holds.items_eq, holds.itemOffset_eq, Nat.not_le.mpr inside, if_false,
      UInt32.toNat_zero, Nat.not_lt_zero, Nat.sub_zero, holds.getBounds_eq found found', bind, Except.bind,
      holds.opened e' (List.mem_of_getElem? found'), Bool.not_true, Bool.false_eq_true, size, start,
      readAt_placed place]
    -- raw, or through snappy
    unfold stored
    cases t.noCompression
    · simp only [Bool.false_eq_true, if_false, lossless]
      rfl
    · rfl
  · next outside =>
    simp only [Retrieve, holds.items_eq, Nat.le_of_not_lt outside, if_true]
    rfl

/-- An `Append` into the head file keeps the invariant, with the blob added. -/
theorem append_fits (holds : Holds codec t blobs entries) {blob : List UInt8}
    (fits : ¬(t.headBytes + UInt32.ofNat (stored codec t.noCompression blob).length <
        UInt32.ofNat (stored codec t.noCompression blob).length ∨
      t.headBytes + UInt32.ofNat (stored codec t.noCompression blob).length > t.maxFileSize))
    (short : (stored codec t.noCompression blob).length < 2 ^ 32) {t' : freezerTable}
    (appended : t.Append codec t.items blob = .ok t') :
    Holds codec t' (blobs ++ [blob]) (entries ++ [⟨t'.headId, t'.headBytes⟩]) := by
  rw [Append_of_fits codec t blob fits] at appended
  cases appended
  have noWrap : ¬t.headBytes + UInt32.ofNat (stored codec t.noCompression blob).length <
      UInt32.ofNat (stored codec t.noCompression blob).length := fun wraps => fits (.inl wraps)
  have offset : (t.headBytes + UInt32.ofNat (stored codec t.noCompression blob).length).toNat =
      t.headBytes.toNat + (stored codec t.noCompression blob).length := by
    rw [toNat_add_of_no_wrap noWrap, UInt32.toNat_ofNat', Nat.mod_eq_of_lt short]
  have headOpen := holds.opened _ (List.mem_of_getElem? holds.last)
  constructor
  · simp [holds.items_eq]
  · exact holds.itemOffset_eq
  · simp [holds.index_eq]
  · simp [holds.length_eq]
  · rw [List.getElem?_append_left (by rw [holds.length_eq]; omega)]
    exact holds.first
  · rw [List.length_append, List.length_singleton]
    exact getElem?_append_last holds.length_eq _
  · rw [List.pairwise_append]
    refine ⟨holds.sorted, List.pairwise_singleton _ _, fun e mem new isNew => ?_⟩
    rw [List.mem_singleton] at isNew
    subst isNew
    exact (holds.le_last e mem).trans (.inr ⟨rfl, by dsimp only; omega⟩)
  · exact holds.small
  · dsimp only
    rw [Function.update_self, Option.getD_some, List.length_append, holds.head_length, offset]
  · intro e mem
    rcases List.mem_append.mp mem with old | new
    · exact holds.opened e old
    · rw [List.mem_singleton] at new
      subst new
      exact headOpen
  · exact holds.closed
  · intro g isOpen
    dsimp only at isOpen ⊢
    by_cases head : g = t.headId
    · subst head
      simp
    · rw [Function.update_of_ne head]
      exact holds.exists_of_open g isOpen
  · intro i e e' b found found' item
    rcases getElem?_append_cases holds.length_eq found found' item with ⟨old, old', oldItem⟩ | ⟨last, rfl, rfl⟩
    · exact (holds.placed i e e' b old old' oldItem).extend _ _
    · -- the blob goes at the end of the head file
      rw [holds.last, Option.some.injEq] at last
      subst last
      have start : startOf ⟨t.headId, t.headBytes⟩
          ⟨t.headId, t.headBytes + UInt32.ofNat (stored codec t.noCompression b).length⟩ = t.headBytes.toNat :=
        if_neg (by simp)
      refine ⟨by rw [start, offset], ?_, ?_⟩
      · dsimp only
        rw [Function.update_self, Option.getD_some, List.length_append, holds.head_length, offset]
      · dsimp only
        rw [start, Function.update_self, Option.getD_some, ← holds.head_length, List.drop_left,
          List.take_length]

/-- The file after the head is not open. -/
theorem fresh (holds : Holds codec t blobs entries) : t.files (t.headId + 1) = false := by
  cases opened : t.files (t.headId + 1)
  · rfl
  · have := holds.closed _ opened
    rw [UInt32.toNat_add, UInt32.toNat_one] at this
    have := holds.small
    omega

/-- An `Append` that starts a new head file keeps the invariant, with the blob
added at the start of that file. -/
theorem append_rotate (holds : Holds codec t blobs entries) {blob : List UInt8}
    (rotate : t.headBytes + UInt32.ofNat (stored codec t.noCompression blob).length <
        UInt32.ofNat (stored codec t.noCompression blob).length ∨
      t.headBytes + UInt32.ofNat (stored codec t.noCompression blob).length > t.maxFileSize)
    (short : (stored codec t.noCompression blob).length < 2 ^ 32) {t' : freezerTable}
    (appended : t.Append codec t.items blob = .ok t') (few : t'.headId.toNat < 2 ^ 16) :
    Holds codec t' (blobs ++ [blob]) (entries ++ [⟨t'.headId, t'.headBytes⟩]) := by
  have headOpen := holds.opened _ (List.mem_of_getElem? holds.last)
  rw [Append_of_rotate codec t blob rotate holds.fresh headOpen (holds.exists_of_open _ headOpen)] at appended
  cases appended
  have next : (t.headId + 1).toNat = t.headId.toNat + 1 := by
    rw [UInt32.toNat_add, UInt32.toNat_one]
    have := holds.small
    omega
  have beyond : ∀ e ∈ entries, e.filenum ≠ t.headId + 1 := by
    intro e mem same
    have := holds.filenum_le mem
    rw [same, next] at this
    omega
  have size : (UInt32.ofNat (stored codec t.noCompression blob).length).toNat =
      (stored codec t.noCompression blob).length := by
    rw [UInt32.toNat_ofNat', Nat.mod_eq_of_lt short]
  constructor
  · simp [holds.items_eq]
  · exact holds.itemOffset_eq
  · simp [holds.index_eq]
  · simp [holds.length_eq]
  · rw [List.getElem?_append_left (by rw [holds.length_eq]; omega)]
    exact holds.first
  · rw [List.length_append, List.length_singleton]
    exact getElem?_append_last holds.length_eq _
  · rw [List.pairwise_append]
    refine ⟨holds.sorted, List.pairwise_singleton _ _, fun e mem new isNew => ?_⟩
    rw [List.mem_singleton] at isNew
    subst isNew
    have := holds.filenum_le mem
    exact .inl (by dsimp only; omega)
  · exact few
  · dsimp only
    rw [Function.update_self, Option.getD_some, size]
  · intro e mem
    dsimp only
    rcases List.mem_append.mp mem with old | new
    · rw [Function.update_of_ne (beyond e old)]
      exact holds.opened e old
    · rw [List.mem_singleton] at new
      subst new
      exact Function.update_self _ _ _
  · intro g isOpen
    dsimp only at isOpen ⊢
    by_cases head : g = t.headId + 1
    · rw [head, next]
    · rw [Function.update_of_ne head] at isOpen
      have := holds.closed g isOpen
      omega
  · intro g isOpen
    dsimp only at isOpen ⊢
    by_cases head : g = t.headId + 1
    · subst head
      simp
    · rw [Function.update_of_ne head] at isOpen ⊢
      exact holds.exists_of_open g isOpen
  · intro i e e' b found found' item
    rcases getElem?_append_cases holds.length_eq found found' item with ⟨old, old', oldItem⟩ | ⟨last, rfl, rfl⟩
    · exact (holds.placed i e e' b old old' oldItem).update_of_ne (beyond e' (List.mem_of_getElem? old')) _
    · -- the blob is the whole new head file
      rw [holds.last, Option.some.injEq] at last
      subst last
      have start : startOf ⟨t.headId, t.headBytes⟩
          ⟨t.headId + 1, UInt32.ofNat (stored codec t.noCompression b).length⟩ = 0 :=
        if_pos (fun same => beyond _ (List.mem_of_getElem? holds.last) same)
      refine ⟨by rw [start, size, Nat.zero_add], ?_, ?_⟩
      · dsimp only
        rw [Function.update_self, Option.getD_some, size]
      · dsimp only
        rw [start, Function.update_self, Option.getD_some, List.drop_zero, List.take_length]

end Holds

/-- The table `truncate` leaves when it cuts back to `items` blobs, whose last
entry is `⟨f, o⟩`: the files past `f` closed and deleted, and file `f` the head,
cut at `o`. -/
def truncatedTo (t : freezerTable) (items : Nat) (f o : UInt32) : freezerTable :=
  { t with
    items := items
    index := truncateFile t.index ((items + 1) * indexEntrySize)
    headId := f
    headBytes := o
    files := fun g => t.files g && g ≤ f
    disk := Function.update (fun g => if t.files g && f < g then none else t.disk g) f
      (some (truncateFile ((t.disk f).getD []) o.toNat)) }

namespace Holds

variable {codec : Snappy} {t : freezerTable} {blobs : List (List UInt8)} {entries : List indexEntry}

theorem index_length (holds : Holds codec t blobs entries) : t.index.length = (blobs.length + 1) * indexEntrySize := by
  rw [holds.index_eq, length_flatten_marshallBinary, holds.length_eq]

/-- Cutting the index file after `k + 1` entries keeps those entries. -/
theorem truncateFile_index (holds : Holds codec t blobs entries) {k : Nat} (less : k < blobs.length) :
    truncateFile t.index ((k + 1) * indexEntrySize) =
      ((entries.take (k + 1)).map indexEntry.marshallBinary).flatten := by
  rw [truncateFile, if_pos (by rw [holds.index_length]; exact Nat.mul_le_mul_right _ (by omega)),
    holds.index_eq, take_flatten_marshallBinary]

/-- `truncate` below the blobs held cuts back to the entry that closes the last blob kept. -/
theorem truncate_eq (holds : Holds codec t blobs entries) {k : Nat} (less : k < blobs.length) {f o : UInt32}
    (found : entries[k]? = some ⟨f, o⟩) : t.truncate k = .ok (truncatedTo t k f o) := by
  have cut := holds.truncateFile_index less
  have kept : (entries.take (k + 1))[k]? = some ⟨f, o⟩ := by
    rw [List.getElem?_take, if_pos (Nat.lt_succ_self k), found]
  have small := holds.filenum_small (List.mem_of_getElem? found)
  have fOpen := holds.opened _ (List.mem_of_getElem? found)
  simp only [truncate, holds.items_eq, Nat.not_le.mpr less, if_false, cut, readAt_marshallBinary kept,
    unmarshalBinary_marshallBinary small, bind, Except.bind, pure, Except.pure]
  split_ifs with moved
  · -- the cut falls in an earlier file: it is reopened for appending and the later ones deleted
    simp only [freezerTable.releaseFile, freezerTable.openFile, Function.update_self, Bool.false_eq_true,
      if_false, freezerTable.releaseFilesAfter, Function.update_idem, truncatedTo, Except.ok.injEq,
      freezerTable.mk.injEq]
    have reopened : Function.update t.files f true = t.files := Function.update_eq_self_iff.mpr fOpen.symm
    refine ⟨trivial, trivial, trivial, ?_, by rw [reopened], trivial, cut.symm, trivial, trivial⟩
    funext g
    by_cases same : g = f
    · simp [same]
    · simp [Function.update_of_ne same, reopened]
  · -- the cut falls in the head file, and no file past it is open
    have head : f = t.headId := not_not.mp moved
    subst head
    simp only [truncatedTo, Except.ok.injEq, freezerTable.mk.injEq]
    have below (g : UInt32) (isOpen : t.files g = true) : g ≤ t.headId :=
      UInt32.le_iff_toNat_le.mpr (holds.closed g isOpen)
    refine ⟨trivial, trivial, trivial, ?_, ?_, trivial, cut.symm, trivial, trivial⟩
    · congr 1
      funext g
      cases isOpen : t.files g
      · rfl
      · have notPast : ¬t.headId < g := UInt32.not_lt.mpr (below g isOpen)
        simp [notPast]
    · funext g
      cases isOpen : t.files g
      · rfl
      · simp [below g isOpen]

/-- Cutting back to `k` blobs keeps the first `k` blobs, through their `k + 1` entries. -/
theorem truncate (holds : Holds codec t blobs entries) {k : Nat} (less : k < blobs.length) {f o : UInt32}
    (found : entries[k]? = some ⟨f, o⟩) :
    Holds codec (truncatedTo t k f o) (blobs.take k) (entries.take (k + 1)) := by
  have size : (entries.take (k + 1)).length = k + 1 := by
    rw [List.length_take, holds.length_eq]
    omega
  have kept : (entries.take (k + 1))[k]? = some ⟨f, o⟩ := by
    rw [List.getElem?_take, if_pos (Nat.lt_succ_self k), found]
  have sorted := holds.sorted.sublist (List.take_sublist (k + 1) entries)
  -- every entry kept comes no later than the new last one
  have before := le_of_pairwise sorted kept size
  -- the files up to `f` keep their contents when the later ones are deleted
  have untouched : ∀ g, g.toNat ≤ f.toNat →
      (if (t.files g && decide (f < g)) = true then none else t.disk g) = t.disk g := by
    intro g le
    have notPast : ¬f < g := UInt32.not_lt.mpr (UInt32.le_iff_toNat_le.mpr le)
    simp [notPast]
  refine ⟨?items, holds.itemOffset_eq, holds.truncateFile_index less, size.trans ?length, ?first, ?last,
    sorted, ?small, ?head, ?opened, ?closed, ?present, ?placed⟩
  case items => simp only [truncatedTo, List.length_take]; omega
  case length => rw [List.length_take]; omega
  case first => rw [List.getElem?_take, if_pos (Nat.succ_pos k)]; exact holds.first
  case last => rwa [List.length_take, Nat.min_eq_left (Nat.le_of_lt less)]
  case small => exact holds.filenum_small (List.mem_of_getElem? found)
  case head => simp only [truncatedTo, Function.update_self, Option.getD_some, length_truncateFile]
  case opened =>
    intro e mem
    have le := UInt32.le_iff_toNat_le.mpr (before e mem).filenum_le
    simp only [truncatedTo, holds.opened e (List.mem_of_mem_take mem), le, decide_true, Bool.and_self]
  case closed =>
    intro g isOpen
    simp only [truncatedTo, Bool.and_eq_true, decide_eq_true_eq] at isOpen
    exact UInt32.le_iff_toNat_le.mp isOpen.2
  case present =>
    intro g isOpen
    simp only [truncatedTo, Bool.and_eq_true, decide_eq_true_eq] at isOpen
    by_cases same : g = f
    · simp [truncatedTo, same]
    · simp only [truncatedTo, Function.update_of_ne same, untouched g (UInt32.le_iff_toNat_le.mp isOpen.2)]
      exact holds.exists_of_open g isOpen.1
  case placed =>
    intro i e e' b at_i at_next item
    have e'_le := before e' (List.mem_of_getElem? at_next)
    rw [List.getElem?_take] at at_i at_next item
    split_ifs at item with early
    rw [if_pos (by omega)] at at_i at_next
    have place := holds.placed i e e' b at_i at_next item
    -- deleting the later files leaves the file `e'` names; cutting the head leaves what lies before `o`
    have spared : Placed (fun g => if (t.files g && decide (f < g)) = true then none else t.disk g) e e'
        (stored codec t.noCompression b) := by
      unfold Placed
      beta_reduce
      rwa [untouched _ e'_le.filenum_le]
    have cut := spared.truncate f (fun same => e'_le.offset_le same)
    rwa [untouched f (Nat.le_refl _)] at cut

/-- `Append` with the next item number succeeds, keeps the codec setting, and
holds the blob added as long as the head file number still fits the index. -/
theorem append (holds : Holds codec t blobs entries) (blob : List UInt8)
    (short : (stored codec t.noCompression blob).length < 2 ^ 32) :
    ∃ t', t.Append codec t.items blob = .ok t' ∧ t'.noCompression = t.noCompression ∧
      (t'.headId.toNat < 2 ^ 16 → Holds codec t' (blobs ++ [blob]) (entries ++ [⟨t'.headId, t'.headBytes⟩])) := by
  have headOpen := holds.opened _ (List.mem_of_getElem? holds.last)
  by_cases rotate : t.headBytes + UInt32.ofNat (stored codec t.noCompression blob).length <
        UInt32.ofNat (stored codec t.noCompression blob).length ∨
      t.headBytes + UInt32.ofNat (stored codec t.noCompression blob).length > t.maxFileSize
  · have appended := Append_of_rotate codec t blob rotate holds.fresh headOpen (holds.exists_of_open _ headOpen)
    exact ⟨_, appended, rfl, holds.append_rotate rotate short appended⟩
  · have appended := Append_of_fits codec t blob rotate
    exact ⟨_, appended, rfl, fun _ => holds.append_fits rotate short appended⟩

/-- Where an `Append` writes: a blob that does not fit the head file, as the
`uint32` sum measures it, starts the next file at offset `0`, and one that
fits goes at the end of the head file. The limit and the codec setting stay. -/
theorem append_head (holds : Holds codec t blobs entries) {blob : List UInt8} {t' : freezerTable}
    (appended : t.Append codec t.items blob = .ok t') :
    t'.maxFileSize = t.maxFileSize ∧ t'.noCompression = t.noCompression ∧
      let bLen := UInt32.ofNat (stored codec t.noCompression blob).length
      if t.headBytes + bLen < bLen ∨ t.headBytes + bLen > t.maxFileSize then
        t'.headId = t.headId + 1 ∧ t'.headBytes = bLen
      else t'.headId = t.headId ∧ t'.headBytes = t.headBytes + bLen := by
  have headOpen := holds.opened _ (List.mem_of_getElem? holds.last)
  by_cases rotate : t.headBytes + UInt32.ofNat (stored codec t.noCompression blob).length <
        UInt32.ofNat (stored codec t.noCompression blob).length ∨
      t.headBytes + UInt32.ofNat (stored codec t.noCompression blob).length > t.maxFileSize
  · rw [Append_of_rotate codec t blob rotate holds.fresh headOpen (holds.exists_of_open _ headOpen)] at appended
    cases appended
    exact ⟨rfl, rfl, by rw [if_pos rotate]; exact ⟨rfl, rfl⟩⟩
  · rw [Append_of_fits codec t blob rotate] at appended
    cases appended
    exact ⟨rfl, rfl, by rw [if_neg rotate]; exact ⟨rfl, rfl⟩⟩

/-- One call succeeds, keeps the codec setting, and holds the blobs the call
leaves, as long as the head file number still fits the index. -/
theorem after_step (holds : Holds codec t blobs entries) (op : Op)
    (short : ∀ blob, op = .Append blob → (stored codec t.noCompression blob).length < 2 ^ 32) :
    ∃ t', t.step codec op = .ok t' ∧ t'.noCompression = t.noCompression ∧ t'.maxFileSize = t.maxFileSize ∧
      (t'.headId.toNat < 2 ^ 16 → ∃ entries', Holds codec t' (Op.apply blobs op) entries') := by
  cases op with
  | Append blob =>
    obtain ⟨t', appended, same, keeps⟩ := holds.append blob (short blob rfl)
    exact ⟨t', appended, same, (holds.append_head appended).1, fun few => ⟨_, keeps few⟩⟩
  | truncate k =>
    by_cases less : k < blobs.length
    · obtain ⟨⟨f, o⟩, found⟩ := holds.entry_exists (Nat.le_of_lt less)
      exact ⟨_, holds.truncate_eq less found, rfl, rfl, fun _ => ⟨_, holds.truncate less found⟩⟩
    · -- nothing to cut: the table is returned as it is
      have unchanged : t.truncate k = .ok t := by
        simp only [freezerTable.truncate, holds.items_eq, Nat.le_of_not_lt less, if_true]
        rfl
      refine ⟨t, unchanged, rfl, rfl, fun _ => ⟨entries, ?_⟩⟩
      rwa [Op.apply, List.take_of_length_le (Nat.le_of_not_lt less)]

/-- A run of calls succeeds and holds the blobs the calls leave, as long as
every head file number on the way fits the index. -/
theorem after_run (holds : Holds codec t blobs entries) (ops : List Op)
    (short : ∀ blob, Op.Append blob ∈ ops → (stored codec t.noCompression blob).length < 2 ^ 32)
    (few : ∀ s ∈ t.trace codec ops, s.headId.toNat < 2 ^ 16) :
    ∃ t', t.run codec ops = .ok t' ∧ (∃ entries', Holds codec t' (ops.foldl Op.apply blobs) entries') ∧
      t'.noCompression = t.noCompression ∧ t'.maxFileSize = t.maxFileSize := by
  induction ops generalizing t blobs entries with
  | nil => exact ⟨t, rfl, ⟨entries, holds⟩, rfl, rfl⟩
  | cons op ops ih =>
    obtain ⟨t', stepped, same, sameLimit, keeps⟩ :=
      holds.after_step op (fun blob isAppend => short blob (isAppend ▸ List.mem_cons_self))
    have passes : t.trace codec (op :: ops) = t' :: t'.trace codec ops := by
      rw [trace, stepped]
    rw [passes] at few
    obtain ⟨entries', holds'⟩ := keeps (few t' List.mem_cons_self)
    obtain ⟨t'', ran, rest, same', sameLimit'⟩ := ih holds'
      (fun blob mem => same ▸ short blob (List.mem_cons_of_mem _ mem))
      (fun s mem => few s (List.mem_cons_of_mem _ mem))
    refine ⟨t'', ?_, rest, same'.trans same, sameLimit'.trans sameLimit⟩
    rw [run, stepped]
    exact ran

end Holds

/-- The table `newCustomTable` opens holds no blob, through the zero entry alone. -/
theorem newTable_holds (codec : Snappy) (maxFileSize : UInt32) (noCompression : Bool) :
    Holds codec (newTable maxFileSize noCompression) [] [⟨0, 0⟩] where
  items_eq := rfl
  itemOffset_eq := rfl
  index_eq := by simp [newTable]
  length_eq := rfl
  first := rfl
  last := rfl
  sorted := List.pairwise_singleton _ _
  small := Nat.two_pow_pos 16
  head_length := rfl
  opened := by simp [newTable]
  closed := by simp [newTable]
  exists_of_open := by simp [newTable]
  placed := by simp

/-! ### What a run returns -/

/-- The tables a run passes through before call `i` are among those of the whole run. -/
theorem mem_trace_of_mem_trace_take (codec : Snappy) :
    ∀ (t : freezerTable) (ops : List Op) (i : Nat), ∀ s ∈ t.trace codec (ops.take i), s ∈ t.trace codec ops
  | _, [], _, s, mem => by rw [List.take_nil] at mem; exact mem
  | _, _ :: _, 0, s, mem => by rw [List.take_zero, trace] at mem; exact absurd mem List.not_mem_nil
  | t, op :: ops, i + 1, s, mem => by
    rw [List.take_succ_cons, trace] at mem
    rw [trace]
    cases stepped : t.step codec op with
    | error => rw [stepped] at mem; exact absurd mem List.not_mem_nil
    | ok t' =>
      simp only [stepped] at mem ⊢
      rcases List.mem_cons.mp mem with rfl | later
      · exact List.mem_cons_self
      · exact List.mem_cons_of_mem _ (mem_trace_of_mem_trace_take codec t' ops i s later)

/-- From an empty table, every run of `Append` with the next item number and
`truncate` succeeds; the table then returns the blobs the calls leave, each
between the index entries of its neighbours. Each `Append` whose blob does not
fit the head file, by the code's `uint32` test, starts the next file and
writes the blob at its offset `0`; one that fits writes at the head file's
end. This needs a codec that decodes what it encodes, every stored blob
shorter than `2^32` bytes, and every head file number below `2^16`. -/
theorem Retrieve_after_run (codec : Snappy) (lossless : ∀ b, codec.Decode (codec.Encode b) = some b)
    (maxFileSize : UInt32) (noCompression : Bool) (ops : List Op)
    (short : ∀ blob, Op.Append blob ∈ ops → (stored codec noCompression blob).length < 2 ^ 32)
    (few : ∀ s ∈ (newTable maxFileSize noCompression).trace codec ops, s.headId.toNat < 2 ^ 16) :
    ∃ t, (newTable maxFileSize noCompression).run codec ops = .ok t ∧
      (∃ entries, Holds codec t (ops.foldl Op.apply []) entries) ∧
      (∀ i, t.Retrieve codec i =
        if h : i < (ops.foldl Op.apply []).length then .ok (ops.foldl Op.apply [])[i] else .error .errOutOfBounds) ∧
      ∀ i blob, ops[i]? = some (.Append blob) →
        ∃ s s', (newTable maxFileSize noCompression).run codec (ops.take i) = .ok s ∧
          s.step codec (.Append blob) = .ok s' ∧
          let bLen := UInt32.ofNat (stored codec noCompression blob).length
          if s.headBytes + bLen < bLen ∨ s.headBytes + bLen > maxFileSize then
            s'.headId = s.headId + 1 ∧ s'.headBytes = bLen
          else s'.headId = s.headId ∧ s'.headBytes = s.headBytes + bLen := by
  obtain ⟨t, ran, ⟨entries, holds⟩, -, -⟩ := (newTable_holds codec maxFileSize noCompression).after_run ops short few
  refine ⟨t, ran, ⟨entries, holds⟩, holds.Retrieve_eq lossless, fun i blob at_i => ?_⟩
  -- the run up to call `i` keeps the invariant, the codec setting and the limit
  obtain ⟨s, ranBefore, ⟨_, holdsBefore⟩, sameCodec, sameLimit⟩ :=
    (newTable_holds codec maxFileSize noCompression).after_run (ops.take i)
      (fun blob mem => short blob (List.mem_of_mem_take mem))
      (fun s mem => few s (mem_trace_of_mem_trace_take codec _ ops i s mem))
  have sameCodec : s.noCompression = noCompression := sameCodec
  have sameLimit : s.maxFileSize = maxFileSize := sameLimit
  obtain ⟨s', appended, -, -⟩ := holdsBefore.append blob (sameCodec ▸ short blob (List.mem_of_getElem? at_i))
  obtain ⟨-, -, placed⟩ := holdsBefore.append_head appended
  rw [sameCodec, sameLimit] at placed
  exact ⟨s, s', ranBefore, appended, placed⟩

/-- Blobs of three and two bytes in files of four: the second starts file `1`;
cutting back to one blob and appending another starts file `1` again. -/
theorem Retrieve_after_run_rotate_truncate :
    let ops : List Op := [.Append [1, 2, 3], .Append [4, 5], .truncate 1, .Append [6]]
    ∃ t, (newTable 4 true).run ⟨id, some⟩ ops = .ok t ∧
      (∃ entries, Holds ⟨id, some⟩ t (ops.foldl Op.apply []) entries) ∧
      (∀ i, t.Retrieve ⟨id, some⟩ i =
        if h : i < (ops.foldl Op.apply []).length then .ok (ops.foldl Op.apply [])[i] else .error .errOutOfBounds) ∧
      ∀ i blob, ops[i]? = some (.Append blob) →
        ∃ s s', (newTable 4 true).run ⟨id, some⟩ (ops.take i) = .ok s ∧
          s.step ⟨id, some⟩ (.Append blob) = .ok s' ∧
          let bLen := UInt32.ofNat (stored ⟨id, some⟩ true blob).length
          if s.headBytes + bLen < bLen ∨ s.headBytes + bLen > 4 then
            s'.headId = s.headId + 1 ∧ s'.headBytes = bLen
          else s'.headId = s.headId ∧ s'.headBytes = s.headBytes + bLen :=
  Retrieve_after_run ⟨id, some⟩ (fun _ => rfl) 4 true [.Append [1, 2, 3], .Append [4, 5], .truncate 1, .Append [6]]
    (by
      intro blob mem
      simp only [List.mem_cons, Op.Append.injEq, reduceCtorEq, List.not_mem_nil, or_false, false_or] at mem
      rcases mem with rfl | rfl | rfl <;> decide)
    (by decide)

/-- A raw blob of `2^32` bytes is measured as `0` bytes by `Append`: it is
written whole, but its index entry closes it where it starts, so it reads back
empty. -/
theorem Retrieve_after_run_long_blob :
    ∃ t, (newTable 1 true).run ⟨id, some⟩ [.Append (List.replicate (2 ^ 32) 0)] = .ok t ∧
      t.Retrieve ⟨id, some⟩ 0 = .ok [] ∧ t.Retrieve ⟨id, some⟩ 0 ≠ .ok (List.replicate (2 ^ 32) 0) := by
  have wraps :
      UInt32.ofNat (stored ⟨id, some⟩ (newTable 1 true).noCompression (List.replicate (2 ^ 32) 0)).length = 0 := by
    rw [stored, if_pos (show (newTable 1 true).noCompression = true from rfl), List.length_replicate]
    rfl
  have fits :
      ¬((newTable 1 true).headBytes +
            UInt32.ofNat (stored ⟨id, some⟩ (newTable 1 true).noCompression (List.replicate (2 ^ 32) 0)).length <
          UInt32.ofNat (stored ⟨id, some⟩ (newTable 1 true).noCompression (List.replicate (2 ^ 32) 0)).length ∨
        (newTable 1 true).headBytes +
            UInt32.ofNat (stored ⟨id, some⟩ (newTable 1 true).noCompression (List.replicate (2 ^ 32) 0)).length >
          (newTable 1 true).maxFileSize) := by
    rw [wraps]
    decide
  have differs : ∀ r : Except FreezerError (List UInt8),
      r = .ok [] → r = .ok [] ∧ r ≠ .ok (List.replicate (2 ^ 32) 0) := by
    rintro r rfl
    refine ⟨rfl, fun same => ?_⟩
    have lengths := congrArg List.length (Except.ok.inj same)
    rw [List.length_nil, List.length_replicate] at lengths
    exact (Nat.two_pow_pos 32).ne lengths
  have appended := Append_of_fits ⟨id, some⟩ (newTable 1 true) (List.replicate (2 ^ 32) 0) fits
  rw [wraps] at appended
  -- the bytes written play no part in what is read back
  generalize stored ⟨id, some⟩ (newTable 1 true).noCompression (List.replicate (2 ^ 32) 0) = content
    at appended
  refine ⟨?table, ?ran, differs _ ?returns⟩
  case ran =>
    rw [run, step, appended]
    rfl
  case returns =>
    simp [Retrieve, getBounds, newTable, readAt, indexEntry.marshallBinary, indexEntrySize, putBigEndian,
      indexEntry.unmarshalBinary, bigEndian, bind, Except.bind, pure, Except.pure]

end Ebakus.Core.Rawdb
