/-
# Opening a freezer table (`newCustomTable`, `repair`, `preopen`)

`newCustomTable` opens the index file for appending, and `repair` brings the
index and the data files back into agreement after a crash or a loss of data.
A new index gets the zero entry, and a torn entry at its end is cut. The loop
then compares the last entry with the file it names. It cuts the bytes past
the entry's offset from the file. It cuts an entry that points past the end of
its file from the index, and steps back to an earlier file if needed.
`preopen` closes the files `repair` opened and opens every file up to the
head.

After a crash the directory can hold an index cut after any entry, with a
torn entry after it. The data files can hold more bytes than the index names,
and files after the last named one can hold anything. After a loss of data
the files can also hold less. From any such directory, the table `repair`
opens holds the blobs up to the last entry whose file still has its bytes
(`newCustomTable_recovers`). Opening an empty directory gives `newTable`.
Closing a table after a run and opening it again returns what the run stored.

A new index whose zero entry was torn is cut to nothing, and `repair` then
counts its items as `uint64(0 - 1)`.
-/

import Ebakus.Core.Rawdb.FreezerRun

namespace Ebakus.Core.Rawdb

/-- The errors `repair` returns: those of the files it opens, and the one
`Truncate` returns for a negative size. -/
inductive RepairError
  | file (err : FreezerError)
  /-- `truncateFreezerFile(t.index, offsetsSize-indexEntrySize)` below zero. -/
  | negativeSize
  deriving DecidableEq, Repr

/-- `t.index.ReadAt(buffer, off)` into the buffer of one entry, with its error
ignored: a read that fails leaves the buffer as it was. The index holds whole
entries when it is read, so a read gets a whole entry or nothing. -/
def readEntry (index : List UInt8) (off : Int) (buffer : List UInt8) : List UInt8 :=
  if off < 0 then buffer
  else
    match readAt index off.toNat indexEntrySize with
    | .ok read => read
    | .error _ => buffer

namespace freezerTable

/-- The loop of `repair` over an index of `n` entries, whose last one is
`lastIndex`, and a head file of `contentSize` bytes: the entries it keeps,
their last one, and the size of the head file. -/
def repairLoop (t : freezerTable) (buffer : List UInt8) (lastIndex : indexEntry) (contentSize : Nat)
    (n : Nat) : Except RepairError (freezerTable × Nat × indexEntry × Nat) :=
  let contentExp := lastIndex.offset.toNat
  if contentExp = contentSize then .ok (t, n, lastIndex, contentSize)
  else if contentExp < contentSize then
    -- a dangling head: cut at the last offset, after which the sizes agree
    .ok ({ t with
      disk := Function.update t.disk lastIndex.filenum
        (some (truncateFile ((t.disk lastIndex.filenum).getD []) contentExp)) }, n, lastIndex, contentExp)
  else
    match n with
    | 0 => .error .negativeSize
    | n + 1 =>
      -- a dangling entry: the index loses it and the entry before becomes the last
      let t := { t with index := truncateFile t.index (n * indexEntrySize) }
      let buffer := readEntry t.index ((n : Int) * indexEntrySize - indexEntrySize) buffer
      let newLastIndex := indexEntry.unmarshalBinary buffer
      if newLastIndex.filenum ≠ lastIndex.filenum then
        -- back into an earlier head file
        match (t.releaseFile lastIndex.filenum).openFile newLastIndex.filenum .forAppend with
        | .ok head => head.repairLoop buffer newLastIndex ((head.disk newLastIndex.filenum).getD []).length n
        | .error err => .error (.file err)
      else t.repairLoop buffer newLastIndex contentSize n

/-- The loop of `preopen`: the `n` files from `i` on opened read-only. -/
def openReadOnlyFrom (t : freezerTable) (i : UInt32) : Nat → Except FreezerError freezerTable
  | 0 => .ok t
  | n + 1 => do
    let t ← t.openFile i .readOnly
    t.openReadOnlyFrom (i + 1) n

/-- `preopen`: the files past `0` closed, the files from the tail up to the
head opened read-only, and the head opened for appending. -/
def preopen (t : freezerTable) (tailId : UInt32) : Except FreezerError freezerTable := do
  let t := t.releaseFilesAfter 0 false
  let t ← t.openReadOnlyFrom tailId (t.headId.toNat - tailId.toNat)
  t.openFile t.headId .forAppend

/-- `repair`. The tail file number it reads is passed on to `preopen`. -/
def repair (t : freezerTable) : Except RepairError freezerTable := do
  let buffer := List.replicate indexEntrySize (0 : UInt8)
  let size := t.index.length
  -- a new index starts with the zero entry
  let t : freezerTable := { t with index := if size = 0 then t.index ++ buffer else t.index }
  -- a torn entry at the end is cut
  let t : freezerTable := { t with
    index := if size % indexEntrySize ≠ 0 then truncateFile t.index (size - size % indexEntrySize) else t.index }
  let offsetsSize := t.index.length
  let buffer := readEntry t.index 0 buffer
  let firstIndex := indexEntry.unmarshalBinary buffer
  let tailId := firstIndex.offset
  let t := { t with itemOffset := firstIndex.filenum }
  let buffer := readEntry t.index ((offsetsSize : Int) - indexEntrySize) buffer
  let lastIndex := indexEntry.unmarshalBinary buffer
  let t ← (t.openFile lastIndex.filenum .forAppend).mapError .file
  let contentSize := ((t.disk lastIndex.filenum).getD []).length
  -- `offsetsSize` is a whole number of entries
  let (t, entries, lastIndex, contentSize) ←
    t.repairLoop buffer lastIndex contentSize (offsetsSize / indexEntrySize)
  let t := { t with
    items := (t.itemOffset.toUInt64 + UInt64.ofInt ((entries : Int) - 1)).toNat
    headBytes := UInt32.ofNat contentSize
    headId := lastIndex.filenum }
  (t.preopen tailId).mapError .file

end freezerTable

/-- `newCustomTable` over a directory that holds the data files `disk` and the
index file `index`, which is empty when it is new: the table `repair` leaves. -/
def newCustomTable (disk : UInt32 → Option (List UInt8)) (index : List UInt8) (maxFilesize : UInt32)
    (noCompression : Bool) : Except RepairError freezerTable :=
  freezerTable.repair
    { items := 0
      noCompression := noCompression
      maxFileSize := maxFilesize
      disk := disk
      files := fun _ => false
      headId := 0
      index := index
      itemOffset := 0
      headBytes := 0 }

/-! ### Files and entries -/

/-- `disk'` is `disk` with some missing files created empty, as opening a file
for appending does. -/
def Created (disk disk' : UInt32 → Option (List UInt8)) : Prop :=
  ∀ g, disk' g = disk g ∨ (disk g = none ∧ disk' g = some [])

namespace Created

variable {disk disk' disk'' : UInt32 → Option (List UInt8)}

theorem refl (disk : UInt32 → Option (List UInt8)) : Created disk disk :=
  fun _ => .inl rfl

theorem trans (first : Created disk disk') (second : Created disk' disk'') : Created disk disk'' := by
  intro g
  rcases second g with same | ⟨missing, empty⟩
  · rw [same]
    exact first g
  · rcases first g with same' | ⟨missing', _⟩
    · exact .inr ⟨same' ▸ missing, empty⟩
    · exact .inr ⟨missing', empty⟩

/-- A created file reads as the empty file it stands for. -/
theorem getD_eq (created : Created disk disk') (g : UInt32) : (disk' g).getD [] = (disk g).getD [] := by
  rcases created g with same | ⟨missing, empty⟩
  · rw [same]
  · rw [missing, empty]
    rfl

/-- A file that was there is kept. -/
theorem eq_of_isSome (created : Created disk disk') {g : UInt32} (present : (disk g).isSome) : disk' g = disk g := by
  rcases created g with same | ⟨missing, _⟩
  · exact same
  · rw [missing] at present
    cases present

end Created

/-- A file written to a disk is on it, and every other file stays as it was. -/
theorem isSome_update {disk : UInt32 → Option (List UInt8)} {g₀ : UInt32} (c : List UInt8) {bound : Nat}
    (others : ∀ g, g ≠ g₀ → g.toNat ≤ bound → (disk g).isSome) :
    ∀ g, g.toNat ≤ bound → (Function.update disk g₀ (some c) g).isSome := by
  intro g le
  by_cases same : g = g₀
  · rw [same, Function.update_self]
    rfl
  · rw [Function.update_of_ne same]
    exact others g same le

namespace freezerTable

variable {t : freezerTable}

/-- `repair` passes on the table of a successful open. -/
theorem mapError_file_ok (t : freezerTable) :
    (Except.ok t : Except FreezerError freezerTable).mapError RepairError.file = .ok t := rfl

/-- `openFile` for appending: the file is created if it is missing. -/
theorem openFile_forAppend (t : freezerTable) (g : UInt32) :
    ∃ disk files, t.openFile g .forAppend = .ok { t with disk := disk, files := files } ∧ Created t.disk disk := by
  unfold openFile
  split
  · exact ⟨t.disk, t.files, rfl, Created.refl _⟩
  · refine ⟨_, _, rfl, fun h => ?_⟩
    by_cases same : h = g
    · subst same
      rw [Function.update_self]
      cases present : t.disk h
      · exact .inr ⟨rfl, rfl⟩
      · exact .inl rfl
    · exact .inl (Function.update_of_ne same _ _)

/-- Opening a file that is on disk, for appending or read-only, keeps the disk
and opens that file. -/
theorem openFile_of_present {g : UInt32} {opener : Opener} (keeps : opener ≠ .truncated)
    (present : (t.disk g).isSome) :
    ∃ files, t.openFile g opener = .ok { t with files := files } ∧ ∀ h, files h = true ↔ t.files h = true ∨ h = g := by
  have kept : Function.update t.disk g (some ((t.disk g).getD [])) = t.disk := by
    apply Function.update_eq_self_iff.mpr
    cases found : t.disk g
    · rw [found] at present
      cases present
    · rfl
  have opened : ∀ h, Function.update t.files g true h = true ↔ t.files h = true ∨ h = g := by
    intro h
    by_cases same : h = g <;> simp [same]
  by_cases isOpen : t.files g = true
  · refine ⟨t.files, by unfold openFile; rw [if_pos isOpen], fun h => ⟨.inl, fun either => ?_⟩⟩
    rcases either with wasOpen | same
    · exact wasOpen
    · exact same ▸ isOpen
  · cases opener with
    | forAppend => exact ⟨_, by unfold openFile; rw [if_neg isOpen, kept], opened⟩
    | truncated => exact absurd rfl keeps
    | readOnly => exact ⟨_, by unfold openFile; rw [if_neg isOpen, if_pos present], opened⟩

theorem add_ofNat_succ (i : UInt32) (j : Nat) : i + UInt32.ofNat (j + 1) = i + 1 + UInt32.ofNat j := by
  apply UInt32.toNat_inj.mp
  simp only [UInt32.toNat_add, UInt32.toNat_ofNat', UInt32.toNat_one]
  omega

/-- The read-only loop of `preopen` opens the `n` files from `i` on, when they
are all on disk, and changes nothing else. -/
theorem openReadOnlyFrom_of_present : ∀ {t : freezerTable} {i : UInt32} {n : Nat},
    (∀ j < n, (t.disk (i + UInt32.ofNat j)).isSome) →
    ∃ files, t.openReadOnlyFrom i n = .ok { t with files := files } ∧
      ∀ g, files g = true ↔ t.files g = true ∨ ∃ j < n, g = i + UInt32.ofNat j
  | t, _, 0, _ => ⟨t.files, rfl, fun g => by simp⟩
  | t, i, n + 1, present => by
    have first : (t.disk i).isSome := by simpa using present 0 (Nat.succ_pos n)
    obtain ⟨files, opened, spec⟩ := openFile_of_present (show Opener.readOnly ≠ .truncated by decide) first
    -- the rest of the loop starts at `i + 1` on the same disk
    have later : ∀ j < n, (t.disk (i + 1 + UInt32.ofNat j)).isSome := fun j less => by
      have next := present (j + 1) (by omega)
      rwa [add_ofNat_succ] at next
    obtain ⟨files', rest, spec'⟩ := openReadOnlyFrom_of_present (t := { t with files := files }) later
    refine ⟨files', ?_, fun g => ?_⟩
    · rw [openReadOnlyFrom, opened]
      exact rest
    · rw [spec', spec]
      constructor
      · rintro ((wasOpen | rfl) | ⟨j, less, rfl⟩)
        · exact .inl wasOpen
        · exact .inr ⟨0, Nat.succ_pos n, by simp⟩
        · exact .inr ⟨j + 1, by omega, (add_ofNat_succ i j).symm⟩
      · rintro (wasOpen | ⟨j, less, rfl⟩)
        · exact .inl (.inl wasOpen)
        · cases j with
          | zero => exact .inl (.inr (by simp))
          | succ j => exact .inr ⟨j, by omega, add_ofNat_succ i j⟩

/-- `preopen` from file `0`, when every file up to the head is on disk, keeps
the disk and leaves exactly the files up to the head open. -/
theorem preopen_of_present (present : ∀ g : UInt32, g.toNat ≤ t.headId.toNat → (t.disk g).isSome) :
    ∃ files, t.preopen 0 = .ok { t with files := files } ∧ ∀ g, files g = true ↔ g.toNat ≤ t.headId.toNat := by
  -- closing the files past `0` deletes nothing
  have released : t.releaseFilesAfter 0 false = { t with files := fun g => t.files g && g ≤ 0 } := by
    simp [releaseFilesAfter]
  have readable : ∀ j < t.headId.toNat, (t.disk (0 + UInt32.ofNat j)).isSome := fun j less =>
    present _ (by simp; omega)
  obtain ⟨files, opened, spec⟩ := openReadOnlyFrom_of_present (t := { t with files := fun g => t.files g && g ≤ 0 })
    (i := 0) (n := t.headId.toNat) readable
  obtain ⟨files', head, spec'⟩ := openFile_of_present (t := { t with files := files }) (g := t.headId)
    (show Opener.forAppend ≠ .truncated by decide) (present _ (Nat.le_refl _))
  refine ⟨files', ?_, fun g => ?_⟩
  · rw [preopen, released]
    simp only [UInt32.toNat_zero, Nat.sub_zero]
    rw [opened]
    exact head
  · rw [spec', spec]
    simp only [Bool.and_eq_true, decide_eq_true_eq]
    constructor
    · rintro ((⟨_, atZero⟩ | ⟨j, less, rfl⟩) | rfl)
      · have : g = 0 := UInt32.le_zero_iff.mp atZero
        subst this
        simp
      · simp
        omega
      · exact Nat.le_refl _
    · intro le
      by_cases below : g.toNat < t.headId.toNat
      · exact .inl (.inr ⟨g.toNat, below, by simp⟩)
      · exact .inr (UInt32.toNat_inj.mp (by omega))

/-- `preopen` from file `0` as `repair` runs it, when every file up to the head
is on disk: a property of each table with the same fields whose open files are
those up to the head holds of the table `repair` returns. -/
theorem exists_preopen {T : freezerTable} (present : ∀ g : UInt32, g.toNat ≤ T.headId.toNat → (T.disk g).isSome)
    {P : freezerTable → Prop} (holds : ∀ files, (∀ g, files g = true ↔ g.toNat ≤ T.headId.toNat) → P { T with files := files }) :
    ∃ t', (T.preopen 0).mapError RepairError.file = .ok t' ∧ P t' := by
  obtain ⟨files, pre, spec⟩ := preopen_of_present present
  exact ⟨_, by rw [pre]; rfl, holds files spec⟩

/-- A head file that holds the last entry's offset is cut there, and the loop
stops. -/
theorem repairLoop_of_le {buffer : List UInt8} {last : indexEntry} {n : Nat} {c : List UInt8}
    (stat : t.disk last.filenum = some c) (fits : last.offset.toNat ≤ c.length) :
    t.repairLoop buffer last c.length n =
      .ok ({ t with disk := Function.update t.disk last.filenum (some (c.take last.offset.toNat)) }, n, last,
        last.offset.toNat) := by
  rw [repairLoop.eq_def]
  by_cases same : last.offset.toNat = c.length
  · -- the sizes agree: nothing is cut
    have kept : Function.update t.disk last.filenum (some (c.take last.offset.toNat)) = t.disk := by
      rw [same, List.take_length]
      exact Function.update_eq_self_iff.mpr stat.symm
    rw [if_pos same, kept, same]
  · have dangling : last.offset.toNat < c.length := by omega
    rw [if_neg same, if_pos dangling, stat, Option.getD_some, truncateFile, if_pos fits]

end freezerTable

/-- Cutting a file of entries after `i` of them. -/
theorem truncateFile_flatten {E : List indexEntry} {i : Nat} (within : i ≤ E.length) :
    truncateFile (E.map indexEntry.marshallBinary).flatten (i * indexEntrySize) =
      ((E.take i).map indexEntry.marshallBinary).flatten := by
  rw [truncateFile, if_pos (by rw [length_flatten_marshallBinary]; exact Nat.mul_le_mul_right _ within),
    take_flatten_marshallBinary]

/-- Reading entry `i` of a file of entries fills the buffer with it. -/
theorem readEntry_flatten {E : List indexEntry} {i : Nat} {e : indexEntry} (found : E[i]? = some e)
    {off : Int} (at_i : off = ((i * indexEntrySize : Nat) : Int)) (buffer : List UInt8) :
    readEntry (E.map indexEntry.marshallBinary).flatten off buffer = e.marshallBinary := by
  subst at_i
  rw [readEntry, if_neg (by omega), Int.toNat_natCast, readAt_marshallBinary found]

/-- A torn entry after whole ones is cut, leaving the whole ones. -/
theorem cut_torn (E : List indexEntry) {torn : List UInt8} (short : torn.length < indexEntrySize) :
    (if ((E.map indexEntry.marshallBinary).flatten ++ torn).length % indexEntrySize ≠ 0 then
        truncateFile ((E.map indexEntry.marshallBinary).flatten ++ torn)
          (((E.map indexEntry.marshallBinary).flatten ++ torn).length -
            ((E.map indexEntry.marshallBinary).flatten ++ torn).length % indexEntrySize)
      else (E.map indexEntry.marshallBinary).flatten ++ torn) = (E.map indexEntry.marshallBinary).flatten := by
  have size : ((E.map indexEntry.marshallBinary).flatten ++ torn).length % indexEntrySize = torn.length := by
    rw [List.length_append, length_flatten_marshallBinary]
    simp only [indexEntrySize] at short ⊢
    omega
  rw [size]
  split
  · rw [List.length_append, Nat.add_sub_cancel, truncateFile, if_pos (by simp), List.take_left]
  · next empty =>
    rw [List.length_eq_zero_iff.mp (not_not.mp empty), List.append_nil]

/-- What the prologue of `repair` reads of an index of the entries `E` whose
first is the zero entry: the zero entry, the last entry, and their number. -/
theorem reads_flatten {E : List indexEntry} {k : Nat} (size : E.length = k + 1)
    (first : E[0]? = some ⟨0, 0⟩) {last : indexEntry} (at_last : E[k]? = some last) :
    indexEntry.unmarshalBinary (readEntry (E.map indexEntry.marshallBinary).flatten 0
        (List.replicate indexEntrySize 0)) = ⟨0, 0⟩ ∧
      (∀ buffer, readEntry (E.map indexEntry.marshallBinary).flatten
        (((E.map indexEntry.marshallBinary).flatten.length : Int) - indexEntrySize) buffer = last.marshallBinary) ∧
      (E.map indexEntry.marshallBinary).flatten.length / indexEntrySize = k + 1 := by
  refine ⟨?_, fun buffer => readEntry_flatten at_last ?_ buffer, ?_⟩
  · rw [readEntry_flatten first (show (0 : Int) = ((0 * indexEntrySize : Nat) : Int) by rfl)]
    decide
  · rw [length_flatten_marshallBinary, size]
    push_cast
    ring
  · rw [length_flatten_marshallBinary, size, Nat.mul_div_cancel _ (by decide)]

/-! ### The loop of `repair` -/

section Loop

variable {E : List indexEntry} {disk : UInt32 → Option (List UInt8)} {j : Nat} {e : indexEntry}

/-- Over an index of the entries `E` up to `j + m`, on a disk where every entry
past `j` points past the end of its file and entry `j` does not, the loop
drops the entries past `j`, reopening their files on the way (which may create
missing ones), and stops at entry `j`: it cuts that entry's file at its offset
and keeps the entries up to it. The induction is on the entries dropped. -/
theorem repairLoop_stops (small : ∀ e ∈ E, e.filenum.toNat < 2 ^ 16) (found : E[j]? = some e)
    (present : ∃ c, disk e.filenum = some c ∧ e.offset.toNat ≤ c.length)
    (lost : ∀ i e', j < i → E[i]? = some e' → ((disk e'.filenum).getD []).length < e'.offset.toNat) :
    ∀ m (t : freezerTable) (buffer : List UInt8) {last : indexEntry}, E[j + m]? = some last →
      t.index = ((E.take (j + m + 1)).map indexEntry.marshallBinary).flatten → Created disk t.disk →
      ∃ files d, Created disk d ∧
        t.repairLoop buffer last ((t.disk last.filenum).getD []).length (j + m + 1) =
          .ok ({ t with
              index := ((E.take (j + 1)).map indexEntry.marshallBinary).flatten
              files := files
              disk := Function.update d e.filenum (some (((disk e.filenum).getD []).take e.offset.toNat)) },
            j + 1, e, e.offset.toNat) := by
  obtain ⟨c, stat, fits⟩ := present
  intro m
  induction m with
  | zero =>
    -- entry `j` is the last: its file holds it, so the loop cuts the file and stops
    intro t buffer last at_last index created
    have same : last = e := by
      rw [Nat.add_zero, found] at at_last
      exact (Option.some.inj at_last).symm
    subst same
    rw [Nat.add_zero] at index
    have stat' : t.disk last.filenum = some c := (created.eq_of_isSome (by rw [stat]; rfl)).trans stat
    refine ⟨t.files, t.disk, created, ?_⟩
    rw [stat', Option.getD_some, freezerTable.repairLoop_of_le stat' fits, stat, Option.getD_some, ← index]
  | succ m ih =>
    -- entry `j + m + 1` is the last and points past its file: it is dropped
    intro t buffer last at_last index created
    have inside : j + m + 1 < E.length := (List.getElem?_eq_some_iff.mp at_last).1
    obtain ⟨prev, at_prev⟩ : ∃ prev, E[j + m]? = some prev := ⟨_, List.getElem?_eq_getElem (by omega)⟩
    have short : ((t.disk last.filenum).getD []).length < last.offset.toNat := by
      rw [created.getD_eq]
      exact lost _ _ (by omega) at_last
    have cut : truncateFile t.index ((j + m + 1) * indexEntrySize) =
        ((E.take (j + m + 1)).map indexEntry.marshallBinary).flatten := by
      rw [index, truncateFile_flatten (E := E.take (j + (m + 1) + 1)) (i := j + m + 1)
        (by rw [List.length_take]; omega), List.take_take, Nat.min_eq_left (by omega)]
    have read : readEntry ((E.take (j + m + 1)).map indexEntry.marshallBinary).flatten
        (((j + m + 1 : Nat) : Int) * indexEntrySize - indexEntrySize) buffer = prev.marshallBinary :=
      readEntry_flatten (i := j + m) (by rw [List.getElem?_take, if_pos (by omega)]; exact at_prev)
        (by simp only [indexEntrySize]; push_cast; ring) buffer
    have decoded := unmarshalBinary_marshallBinary (small prev (List.mem_of_getElem? at_prev))
    rw [show j + (m + 1) + 1 = j + m + 1 + 1 by omega, freezerTable.repairLoop.eq_def]
    simp only [if_neg (Nat.ne_of_gt short), if_neg (Nat.lt_asymm short), cut, read, decoded]
    by_cases moved : prev.filenum ≠ last.filenum
    · -- back into an earlier file: it is reopened for appending
      rw [if_pos moved]
      obtain ⟨d, files, opened, made⟩ := freezerTable.openFile_forAppend
        ({ t with index := ((E.take (j + m + 1)).map indexEntry.marshallBinary).flatten }.releaseFile
          last.filenum) prev.filenum
      rw [opened]
      exact ih _ prev.marshallBinary at_prev rfl (created.trans made)
    · -- the same file, whose size is known
      rw [if_neg moved]
      have same : prev.filenum = last.filenum := not_not.mp moved
      rw [← same]
      exact ih { t with index := ((E.take (j + m + 1)).map indexEntry.marshallBinary).flatten }
        prev.marshallBinary at_prev rfl created

end Loop

/-! ### What the reopened table holds -/

/-- A placement only needs the file up to the closing offset, as a prefix. -/
theorem Placed.of_prefix {disk disk' : UInt32 → Option (List UInt8)} {e e' : indexEntry} {s : List UInt8}
    (place : Placed disk e e' s)
    (keeps : ((disk e'.filenum).getD []).take e'.offset.toNat <+: (disk' e'.filenum).getD []) :
    Placed disk' e e' s := by
  have size : (((disk e'.filenum).getD []).take e'.offset.toNat).length = e'.offset.toNat := by
    rw [List.length_take]
    exact Nat.min_eq_left place.2.1
  refine place.congr ?_ (size ▸ keeps.length_le)
  have taken := List.prefix_iff_eq_take.mp keeps
  rw [size] at taken
  rw [← taken]

namespace Holds

variable {codec : Snappy} {t : freezerTable} {blobs : List (List UInt8)} {entries : List indexEntry}

/-- Each entry up to the last lies within its file. -/
theorem offset_le_length (holds : Holds codec t blobs entries) {j : Nat} (within : j ≤ blobs.length)
    {e : indexEntry} (found : entries[j]? = some e) : e.offset.toNat ≤ ((t.disk e.filenum).getD []).length := by
  cases j with
  | zero =>
    rw [holds.first, Option.some.injEq] at found
    subst found
    exact Nat.zero_le _
  | succ i =>
    -- entry `i + 1` closes blob `i`, which lies in its file
    obtain ⟨e₀, at_i⟩ := holds.entry_exists (Nat.le_of_succ_le within)
    exact (holds.placed i e₀ e blobs[i] at_i found (List.getElem?_eq_getElem within)).2.1

/-- A table whose index is the entries up to the `j`-th and which keeps, of
the files of `t`, the bytes the first `j` blobs take, holds those blobs: the
files before entry `j`'s are kept with anything after them, and entry `j`'s
file up to its offset. -/
theorem reopen (holds : Holds codec t blobs entries) {j : Nat} (within : j ≤ blobs.length) {e : indexEntry}
    (found : entries[j]? = some e) {t' : freezerTable}
    (items : t'.items = j) (itemOffset : t'.itemOffset = 0) (setting : t'.noCompression = t.noCompression)
    (index : t'.index = ((entries.take (j + 1)).map indexEntry.marshallBinary).flatten)
    (headId : t'.headId = e.filenum) (headBytes : t'.headBytes = e.offset)
    (files : ∀ g, t'.files g = true ↔ g.toNat ≤ e.filenum.toNat)
    (earlier : ∀ g, g.toNat < e.filenum.toNat → ∃ c, t'.disk g = some c ∧ (t.disk g).getD [] <+: c)
    (last : t'.disk e.filenum = some (((t.disk e.filenum).getD []).take e.offset.toNat)) :
    Holds codec t' (blobs.take j) (entries.take (j + 1)) := by
  have size : (entries.take (j + 1)).length = j + 1 := by
    rw [List.length_take, holds.length_eq]
    omega
  have kept : (entries.take (j + 1))[j]? = some e := by
    rw [List.getElem?_take, if_pos (Nat.lt_succ_self j), found]
  have sorted := holds.sorted.sublist (List.take_sublist (j + 1) entries)
  -- every entry kept comes no later than entry `j`
  have before := le_of_pairwise sorted kept size
  have reaches := holds.offset_le_length within found
  refine ⟨?items, itemOffset, index, size.trans ?length, ?first, ?last, sorted, ?small, ?head, ?opened,
    ?closed, ?present, ?placed⟩
  case items => rw [items, List.length_take]; omega
  case length => rw [List.length_take]; omega
  case first => rw [List.getElem?_take, if_pos (Nat.succ_pos j)]; exact holds.first
  case last => rw [List.length_take, Nat.min_eq_left within, kept, headId, headBytes]
  case small => rw [headId]; exact holds.filenum_small (List.mem_of_getElem? found)
  case head =>
    rw [headId, last, Option.getD_some, List.length_take, headBytes]
    exact Nat.min_eq_left reaches
  case opened => exact fun e' mem => (files _).mpr (before e' mem).filenum_le
  case closed => exact fun g isOpen => headId ▸ (files g).mp isOpen
  case present =>
    intro g isOpen
    have le := (files g).mp isOpen
    by_cases below : g.toNat < e.filenum.toNat
    · obtain ⟨c, stat, _⟩ := earlier g below
      rw [stat]
      rfl
    · rw [show g = e.filenum from UInt32.toNat_inj.mp (by omega), last]
      rfl
  case placed =>
    intro i e₁ e₂ b at_i at_next item
    have e₂_le := before e₂ (List.mem_of_getElem? at_next)
    rw [List.getElem?_take] at at_i at_next item
    split_ifs at item with early
    rw [if_pos (by omega)] at at_i at_next
    rw [setting]
    have place := holds.placed i e₁ e₂ b at_i at_next item
    refine place.of_prefix ?_
    rcases e₂_le with below | ⟨same, le⟩
    · -- an earlier file, kept with anything after it
      obtain ⟨c, stat, grown⟩ := earlier e₂.filenum below
      rw [stat, Option.getD_some]
      exact (List.take_prefix _ _).trans grown
    · -- entry `j`'s file, cut at its offset
      rw [same, last, Option.getD_some]
      exact List.take_prefix_take_left le

end Holds

/-! ### Crash recovery -/

open freezerTable

/-- What `newCustomTable` opens after a crash or a loss of data, from a table
`t` that held `blobs` through `entries`. The index holds the entries up to the
`k`-th, and possibly a torn entry after them. Entry `j ≤ k` is the last whose
file still reaches its offset; every entry between `j` and `k` points past the
end of its file. The files before entry `j`'s keep what `t` had in them,
possibly with more after it, and entry `j`'s file keeps at least the bytes
before its offset. Files past it may hold anything. Then `repair` succeeds,
and the table holds the first `j` blobs. -/
theorem newCustomTable_recovers (codec : Snappy) {t : freezerTable} {blobs : List (List UInt8)}
    {entries : List indexEntry} (holds : Holds codec t blobs entries) {k j : Nat} (within : k ≤ blobs.length)
    (kept : j ≤ k) (few : j < 2 ^ 64) {e : indexEntry} (found : entries[j]? = some e)
    (torn : List UInt8) (short : torn.length < indexEntrySize) (disk : UInt32 → Option (List UInt8))
    (lost : ∀ i e', j < i → i ≤ k → entries[i]? = some e' → ((disk e'.filenum).getD []).length < e'.offset.toNat)
    (earlier : ∀ g, g.toNat < e.filenum.toNat → ∃ c, disk g = some c ∧ (t.disk g).getD [] <+: c)
    (head : ∃ c, disk e.filenum = some c ∧ ((t.disk e.filenum).getD []).take e.offset.toNat <+: c) :
    ∃ t', newCustomTable disk (((entries.take (k + 1)).map indexEntry.marshallBinary).flatten ++ torn)
        t.maxFileSize t.noCompression = .ok t' ∧ Holds codec t' (blobs.take j) (entries.take (j + 1)) := by
  -- the index the crash left: entries `0` to `k`
  set E := entries.take (k + 1) with hE
  have size : E.length = k + 1 := by rw [List.length_take, holds.length_eq]; omega
  have inE : ∀ {i}, i ≤ k → E[i]? = entries[i]? := fun le => by
    rw [List.getElem?_take, if_pos (by omega)]
  have small : ∀ e ∈ E, e.filenum.toNat < 2 ^ 16 := fun e mem => holds.filenum_small (List.mem_of_mem_take mem)
  obtain ⟨last, at_last⟩ := holds.entry_exists within
  have nonzero : ((E.map indexEntry.marshallBinary).flatten ++ torn).length ≠ 0 := by
    rw [List.length_append, length_flatten_marshallBinary, size]; simp [indexEntrySize]
  have lastE : E[k]? = some last := by rw [inE (Nat.le_refl k)]; exact at_last
  obtain ⟨readFirst, readLast, count⟩ := reads_flatten size (by rw [inE (Nat.zero_le k)]; exact holds.first) lastE
  have decodeLast := unmarshalBinary_marshallBinary (small last (List.mem_of_getElem? lastE))
  -- entry `j`'s file keeps the bytes before its offset
  obtain ⟨c, stat, grown⟩ := head
  have reaches := holds.offset_le_length (Nat.le_trans kept within) found
  have taken : c.take e.offset.toNat = ((t.disk e.filenum).getD []).take e.offset.toNat := by
    have same := List.prefix_iff_eq_take.mp grown
    rw [List.length_take, Nat.min_eq_left reaches] at same
    exact same.symm
  have fits : e.offset.toNat ≤ c.length := by
    have := grown.length_le
    rw [List.length_take, Nat.min_eq_left reaches] at this
    exact this
  unfold newCustomTable freezerTable.repair
  simp only [nonzero, if_false, cut_torn E short, readFirst, readLast, decodeLast, count]
  -- the last entry's file is opened for appending, created if it is missing
  obtain ⟨d, files, opened, made⟩ := openFile_forAppend
    { items := 0, noCompression := t.noCompression, maxFileSize := t.maxFileSize, disk := disk,
      files := fun _ => false, headId := 0, index := (E.map indexEntry.marshallBinary).flatten,
      itemOffset := 0, headBytes := 0 } last.filenum
  rw [opened]
  simp only [mapError_file_ok, bind, Except.bind]
  -- the loop drops the entries past `j` and cuts entry `j`'s file
  have stops := repairLoop_stops small (by rw [inE kept]; exact found) ⟨c, stat, fits⟩
    (fun i e' after at_i => lost i e' after (by have := (List.getElem?_eq_some_iff.mp at_i).1; omega)
      (by rw [← inE (by have := (List.getElem?_eq_some_iff.mp at_i).1; omega)]; exact at_i))
    (k - j)
    { items := 0
      noCompression := t.noCompression
      maxFileSize := t.maxFileSize
      disk := d
      files := files
      headId := 0
      index := (E.map indexEntry.marshallBinary).flatten
      itemOffset := 0
      headBytes := 0 } last.marshallBinary
    (show E[j + (k - j)]? = some last by rw [show j + (k - j) = k by omega]; exact lastE)
    (by rw [show j + (k - j) + 1 = k + 1 by omega, List.take_of_length_le (by omega)]) made
  rw [show j + (k - j) + 1 = k + 1 by omega] at stops
  obtain ⟨files', d', made', looped⟩ := stops
  rw [looped]
  dsimp only
  -- the files up to entry `j`'s are on disk
  have kept' : ∀ g, g.toNat < e.filenum.toNat → d' g = disk g := fun g below => by
    obtain ⟨c', stat', _⟩ := earlier g below
    exact made'.eq_of_isSome (by rw [stat']; rfl)
  apply exists_preopen
  case present =>
    refine isSome_update _ fun g other le => ?_
    dsimp only at le
    have below : g.toNat < e.filenum.toNat := by
      have := mt UInt32.toNat_inj.mp other
      omega
    obtain ⟨c', stat', _⟩ := earlier g below
    rw [kept' g below, stat']
    rfl
  case holds =>
    intro files'' spec
    dsimp only at spec
    refine holds.reopen (Nat.le_trans kept within) found ?items rfl rfl ?index rfl ?headBytes spec ?earlier ?last
    case items =>
      show (UInt32.toUInt64 0 + UInt64.ofInt (((j + 1 : Nat) : Int) - 1)).toNat = j
      rw [show ((j + 1 : Nat) : Int) - 1 = (j : Int) by omega]
      simp [UInt64.ofInt]
      omega
    case index =>
      show ((E.take (j + 1)).map indexEntry.marshallBinary).flatten = _
      rw [hE, List.take_take, Nat.min_eq_left (by omega)]
    case headBytes => exact UInt32.ofNat_toNat
    case earlier =>
      intro g below
      obtain ⟨c', stat', grown'⟩ := earlier g below
      refine ⟨c', ?_, grown'⟩
      show Function.update d' e.filenum _ g = _
      rw [Function.update_of_ne (fun same => by rw [same] at below; omega), kept' g below, stat']
    case last =>
      show Function.update d' e.filenum _ e.filenum = _
      rw [Function.update_self, stat, Option.getD_some, taken]

/-- Two blobs were written to one file, and the second blob's bytes were lost:
the table opens with the first. -/
theorem newCustomTable_recovers_after_lost_write :
    let entries : List indexEntry := [⟨0, 0⟩, ⟨0, 3⟩, ⟨0, 5⟩]
    ∃ t', newCustomTable (fun g => if g = 0 then some [1, 2, 3, 4] else none)
        (((entries.take 3).map indexEntry.marshallBinary).flatten ++ [0, 0]) 8 true = .ok t' ∧
      Holds ⟨id, some⟩ t' ([[1, 2, 3], [4, 5]].take 1) (entries.take 2) := by
  intro entries
  -- the table that held both blobs before the crash
  have fits₁ := Append_of_fits ⟨id, some⟩ (newTable 8 true) [1, 2, 3] (by decide)
  have holds₁ := (newTable_holds ⟨id, some⟩ 8 true).append_fits (by decide) (by decide) fits₁
  have holds₂ := holds₁.append_fits (by decide) (by decide) (Append_of_fits _ _ [4, 5] (by decide))
  exact newCustomTable_recovers ⟨id, some⟩ holds₂ (k := 2) (j := 1) (by decide) (by decide) (by decide) rfl
    [0, 0] (by decide) _ (fun i e' after le found => by
      obtain rfl : i = 2 := by omega
      cases found
      decide)
    (fun g below => absurd below (Nat.not_lt_zero _)) ⟨[1, 2, 3, 4], rfl, by decide⟩

/-- In an empty directory `repair` writes the zero entry and creates data file
`0`: the table is `newTable`. -/
theorem newCustomTable_empty (maxFilesize : UInt32) (noCompression : Bool) :
    newCustomTable (fun _ => none) [] maxFilesize noCompression = .ok (newTable maxFilesize noCompression) := by
  have zero : indexEntry.unmarshalBinary [0, 0, 0, 0, 0, 0] = ⟨0, 0⟩ := by decide
  simp [newCustomTable, repair, readEntry, readAt, indexEntrySize, zero, openFile, repairLoop, preopen,
    releaseFilesAfter, openReadOnlyFrom, bind, Except.bind, Except.mapError]
  simp only [newTable, freezerTable.mk.injEq]
  refine ⟨by decide, trivial, trivial, ?_, ?_, trivial, by decide, trivial, trivial⟩
  · funext g
    by_cases zero : g = 0 <;> simp [zero]
  · funext g
    by_cases zero : g = 0 <;> simp [zero]

/-! ### A torn zero entry -/

/-- `Append` refuses an item other than the next one and changes nothing. -/
theorem Append_of_ne (codec : Snappy) (t : freezerTable) {item : Nat} (other : t.items ≠ item) (blob : List UInt8) :
    t.Append codec item blob = .error (.unexpectedItem t.items item) := by
  rw [freezerTable.Append, if_pos other]
  rfl

/-- A new index whose zero entry was torn, with one to five bytes written, is
cut to nothing. No entry is left to read, so the zero buffer stands for both
the first and the last entry: data file `0` is cut to nothing, the loop ends
with no entries, and the table counts `uint64(0 - 1)` items, so it refuses
the first blob. -/
theorem newCustomTable_torn_zero_entry (codec : Snappy) (disk : UInt32 → Option (List UInt8)) {torn : List UInt8}
    (written : 0 < torn.length) (short : torn.length < indexEntrySize) (maxFilesize : UInt32) (noCompression : Bool)
    (blob : List UInt8) :
    ∃ t, newCustomTable disk torn maxFilesize noCompression = .ok t ∧ t.items = 2 ^ 64 - 1 ∧ t.index = [] ∧
      t.disk 0 = some [] ∧ t.Append codec 0 blob = .error (.unexpectedItem (2 ^ 64 - 1) 0) := by
  -- the torn entry is all the index holds, and it is cut to nothing
  have cut := cut_torn [] short
  simp only [List.map_nil, List.flatten_nil, List.nil_append] at cut
  have readFirst : readEntry [] 0 (List.replicate indexEntrySize 0) = List.replicate indexEntrySize 0 := rfl
  have readLast : readEntry [] (((([] : List UInt8).length : Nat) : Int) - indexEntrySize)
      (List.replicate indexEntrySize 0) = List.replicate indexEntrySize 0 := rfl
  have zero : indexEntry.unmarshalBinary (List.replicate indexEntrySize 0) = ⟨0, 0⟩ := by decide
  unfold newCustomTable freezerTable.repair
  simp only [Nat.ne_of_gt written, if_false, cut, readFirst, readLast, zero]
  -- the head, file `0`, is opened for appending, and then cut to the last offset, `0`
  simp only [openFile, Bool.false_eq_true, if_false, mapError_file_ok, bind, Except.bind, Function.update_self,
    Option.getD_some]
  rw [repairLoop_of_le (Function.update_self (0 : UInt32) _ disk) (Nat.zero_le _)]
  dsimp only
  apply exists_preopen
  case present =>
    intro g le
    obtain rfl : g = 0 := UInt32.toNat_inj.mp (by simpa using le)
    simp
  case holds =>
    intro files _
    -- no entries survive, so `repair` counts `uint64(0 - 1)` items
    have items : ((0 : UInt32).toUInt64 +
        UInt64.ofInt (((([] : List UInt8).length / indexEntrySize : Nat) : Int) - 1)).toNat = 2 ^ 64 - 1 := by
      decide
    refine ⟨items, rfl, by simp, ?_⟩
    dsimp only
    rw [Append_of_ne codec _ (by dsimp only; rw [items]; decide), items]

theorem newCustomTable_torn_zero_entry_of_two_bytes :
    0 < [0, 0].length ∧ [0, 0].length < indexEntrySize ∧
      ∃ t, newCustomTable (fun _ => none) [0, 0] 8 true = .ok t ∧ t.items = 2 ^ 64 - 1 ∧ t.index = [] ∧
        t.disk 0 = some [] ∧ t.Append ⟨id, some⟩ 0 [1] = .error (.unexpectedItem (2 ^ 64 - 1) 0) :=
  ⟨by decide, by decide, newCustomTable_torn_zero_entry ⟨id, some⟩ _
    (show 0 < ([0, 0] : List UInt8).length by decide) (by decide) 8 true [1]⟩

/-! ### Reopening after a run -/

/-- Every data file up to the head is on disk. -/
def OnDisk (t : freezerTable) : Prop :=
  ∀ g : UInt32, g.toNat ≤ t.headId.toNat → (t.disk g).isSome

namespace Holds

variable {codec : Snappy} {t : freezerTable} {blobs : List (List UInt8)} {entries : List indexEntry}

/-- A call keeps every file up to the head on disk: a new head file is
created, and a truncation deletes files past the new head only. -/
theorem onDisk_step (holds : Holds codec t blobs entries) (onDisk : OnDisk t) (op : Op) {t' : freezerTable}
    (stepped : t.step codec op = .ok t') : OnDisk t' := by
  cases op with
  | Append blob =>
    have headOpen := holds.opened _ (List.mem_of_getElem? holds.last)
    by_cases rotate : t.headBytes + UInt32.ofNat (stored codec t.noCompression blob).length <
          UInt32.ofNat (stored codec t.noCompression blob).length ∨
        t.headBytes + UInt32.ofNat (stored codec t.noCompression blob).length > t.maxFileSize
    · -- the next file is created as the head
      rw [step, Append_of_rotate codec t blob rotate holds.fresh headOpen (holds.exists_of_open _ headOpen)] at stepped
      cases stepped
      have next : (t.headId + 1).toNat = t.headId.toNat + 1 := by
        rw [UInt32.toNat_add, UInt32.toNat_one]
        have := holds.small
        omega
      refine isSome_update _ fun g other le => onDisk g ?_
      dsimp only at le
      have := mt UInt32.toNat_inj.mp other
      omega
    · -- the head file grows
      rw [step, Append_of_fits codec t blob rotate] at stepped
      cases stepped
      exact isSome_update _ fun g _ le => onDisk g le
  | truncate k =>
    by_cases less : k < blobs.length
    · obtain ⟨⟨f, o⟩, found⟩ := holds.entry_exists (Nat.le_of_lt less)
      rw [step, holds.truncate_eq less found] at stepped
      cases stepped
      -- the files up to the new head `f` are kept, and `f` is cut
      have within := holds.filenum_le (List.mem_of_getElem? found)
      intro g le
      by_cases same : g = f
      · simp [truncatedTo, same]
      · have notPast : ¬f < g := UInt32.not_lt.mpr (UInt32.le_iff_toNat_le.mpr le)
        simp only [truncatedTo, Function.update_of_ne same, notPast, decide_false, Bool.and_false,
          Bool.false_eq_true, if_false]
        exact onDisk g (Nat.le_trans le within)
    · have unchanged : t.truncate k = .ok t := by
        simp only [freezerTable.truncate, holds.items_eq, Nat.le_of_not_lt less, if_true]
        rfl
      rw [step, unchanged] at stepped
      cases stepped
      exact onDisk

/-- A run keeps every file up to the head on disk. -/
theorem onDisk_run (holds : Holds codec t blobs entries) (onDisk : OnDisk t) (ops : List Op)
    (short : ∀ blob, Op.Append blob ∈ ops → (stored codec t.noCompression blob).length < 2 ^ 32)
    (few : ∀ s ∈ t.trace codec ops, s.headId.toNat < 2 ^ 16) :
    ∃ t', t.run codec ops = .ok t' ∧ OnDisk t' := by
  induction ops generalizing t blobs entries with
  | nil => exact ⟨t, rfl, onDisk⟩
  | cons op ops ih =>
    obtain ⟨t', stepped, same, -, keeps⟩ :=
      holds.after_step op (fun blob isAppend => short blob (isAppend ▸ List.mem_cons_self))
    have passes : t.trace codec (op :: ops) = t' :: t'.trace codec ops := by
      rw [trace, stepped]
    rw [passes] at few
    obtain ⟨entries', holds'⟩ := keeps (few t' List.mem_cons_self)
    obtain ⟨t'', ran, onDisk''⟩ := ih holds' (holds.onDisk_step onDisk op stepped)
      (fun blob mem => same ▸ short blob (List.mem_cons_of_mem _ mem))
      (fun s mem => few s (List.mem_cons_of_mem _ mem))
    refine ⟨t'', ?_, onDisk''⟩
    rw [run, stepped]
    exact ran

end Holds

/-- A run leaves no more blobs than it has calls. -/
theorem length_foldl_apply_le : ∀ (ops : List Op) (blobs : List (List UInt8)),
    (ops.foldl Op.apply blobs).length ≤ blobs.length + ops.length
  | [], _ => Nat.le_refl _
  | op :: ops, blobs => by
    have grows : (Op.apply blobs op).length ≤ blobs.length + 1 := by
      cases op with
      | Append blob => simp [Op.apply]
      | truncate items => simp only [Op.apply, List.length_take]; omega
    have rest := length_foldl_apply_le ops (Op.apply blobs op)
    rw [List.foldl_cons, List.length_cons]
    omega

/-- A table opened in an empty directory is `newTable`; after any run of
`Append` and `truncate` it can be closed and opened again from its files, and
the reopened table returns the blobs the run left. This needs a codec that
decodes what it encodes, every stored blob shorter than `2^32` bytes, every
head file number below `2^16`, and fewer than `2^64` calls. -/
theorem Retrieve_after_reopen (codec : Snappy) (lossless : ∀ b, codec.Decode (codec.Encode b) = some b)
    (maxFileSize : UInt32) (noCompression : Bool) (ops : List Op)
    (short : ∀ blob, Op.Append blob ∈ ops → (stored codec noCompression blob).length < 2 ^ 32)
    (few : ∀ s ∈ (newTable maxFileSize noCompression).trace codec ops, s.headId.toNat < 2 ^ 16)
    (calls : ops.length < 2 ^ 64) :
    newCustomTable (fun _ => none) [] maxFileSize noCompression = .ok (newTable maxFileSize noCompression) ∧
      ∃ t, (newTable maxFileSize noCompression).run codec ops = .ok t ∧
        ∃ t', newCustomTable t.disk t.index maxFileSize noCompression = .ok t' ∧
          ∀ i, t'.Retrieve codec i =
            if h : i < (ops.foldl Op.apply []).length then .ok (ops.foldl Op.apply [])[i] else .error .errOutOfBounds := by
  have fresh := newTable_holds codec maxFileSize noCompression
  obtain ⟨t, ran, ⟨entries, holds⟩, sameCodec, sameLimit⟩ := fresh.after_run ops short few
  have startsOnDisk : OnDisk (newTable maxFileSize noCompression) := by
    intro g le
    have zero : g = 0 := UInt32.toNat_inj.mp (by simp only [newTable, UInt32.toNat_zero] at le ⊢; omega)
    simp [newTable, zero]
  obtain ⟨t₂, ran₂, onDisk⟩ := fresh.onDisk_run startsOnDisk ops short few
  have same : t₂ = t := Except.ok.inj (ran₂.symm.trans ran)
  subst same
  have sameCodec : t₂.noCompression = noCompression := sameCodec
  have sameLimit : t₂.maxFileSize = maxFileSize := sameLimit
  have few' : (ops.foldl Op.apply []).length < 2 ^ 64 := by
    have := length_foldl_apply_le ops []
    simp only [List.length_nil, Nat.zero_add] at this
    omega
  -- nothing crashed: the index is whole and every file is as the run left it
  have whole : ((entries.take ((ops.foldl Op.apply []).length + 1)).map indexEntry.marshallBinary).flatten ++ [] =
      t₂.index := by
    rw [List.append_nil, List.take_of_length_le (by rw [holds.length_eq]), holds.index_eq]
  have stored : ∀ g, g.toNat ≤ t₂.headId.toNat → ∃ c, t₂.disk g = some c := fun g le =>
    Option.isSome_iff_exists.mp (onDisk g le)
  obtain ⟨c, stat⟩ := stored _ (Nat.le_refl _)
  obtain ⟨t', reopened, holds'⟩ := newCustomTable_recovers codec holds (Nat.le_refl _) (Nat.le_refl _) few'
    holds.last [] (by decide) t₂.disk (fun _ _ after le => absurd (Nat.lt_of_lt_of_le after le) (Nat.lt_irrefl _))
    (fun g below => by
      obtain ⟨c', stat'⟩ := stored g (Nat.le_of_lt below)
      exact ⟨c', stat', by simp only [stat', Option.getD_some, List.prefix_refl]⟩)
    ⟨c, stat, by simp only [stat, Option.getD_some, List.take_prefix]⟩
  rw [whole, sameCodec, sameLimit] at reopened
  refine ⟨newCustomTable_empty maxFileSize noCompression, t₂, ran₂, t', reopened, ?_⟩
  rw [List.take_length] at holds'
  exact holds'.Retrieve_eq lossless

theorem Retrieve_after_reopen_rotate_truncate :
    let ops : List Op := [.Append [1, 2, 3], .Append [4, 5], .truncate 1, .Append [6]]
    newCustomTable (fun _ => none) [] 4 true = .ok (newTable 4 true) ∧
      ∃ t, (newTable 4 true).run ⟨id, some⟩ ops = .ok t ∧
        ∃ t', newCustomTable t.disk t.index 4 true = .ok t' ∧
          ∀ i, t'.Retrieve ⟨id, some⟩ i =
            if h : i < (ops.foldl Op.apply []).length then .ok (ops.foldl Op.apply [])[i] else .error .errOutOfBounds :=
  Retrieve_after_reopen ⟨id, some⟩ (fun _ => rfl) 4 true [.Append [1, 2, 3], .Append [4, 5], .truncate 1, .Append [6]]
    (by
      intro blob mem
      simp only [List.mem_cons, Op.Append.injEq, reduceCtorEq, List.not_mem_nil, or_false, false_or] at mem
      rcases mem with rfl | rfl | rfl <;> decide)
    (by decide) (by decide)

end Ebakus.Core.Rawdb
