/-
# The freezer table (`core/rawdb/freezer_table.go`)

A freezer table stores blobs numbered from zero in data files of bounded size,
and keeps an index file of six-byte entries: entry `i + 1` holds the number of
the data file in which blob `i` ends and the offset where it ends, stored as a
`uint16` and a `uint32`; entry `0` is zero. A blob that does not fit into the
head file starts a new file, so its start is offset `0` of the later file,
which is how `getBounds` reads two entries that name different files.
`truncate` cuts the index back to an entry, rolls the head back to that
entry's file, deletes the later files, and cuts the head at the recorded
offset.

Files are byte lists on a disk indexed by file number, and `files` says which
ones are open. The table is the one `newCustomTable` opens in an empty
directory: the index holds the zero entry and data file `0` is the empty head.
Snappy is a pair of functions, assumed to be inverse where that is needed.

Appended blobs can be read back exactly when every stored blob is shorter
than `2^32` bytes: `Append` measures a blob as a `uint32`, so a longer one is
written whole but indexed with its length cut modulo `2^32`.
-/

import Mathlib.Logic.Function.Basic
import Mathlib.Tactic.Ring

namespace Ebakus.Core.Rawdb

/-! ### Files -/

/-- The errors the table returns. -/
inductive FreezerError
  | errOutOfBounds
  /-- `appending unexpected item: want %d, have %d`. -/
  | unexpectedItem (want given : Nat)
  /-- `missing data file %d`. -/
  | missingDataFile (filenum : UInt32)
  /-- `io.EOF`: a read past the end of a file. -/
  | eof
  /-- A file opened read-only that does not exist. -/
  | notExist
  /-- A blob `snappy.Decode` rejects. -/
  | corrupt
  deriving DecidableEq, Repr

/-- `file.ReadAt(b, off)` for a buffer of `n` bytes: all of them, or `io.EOF`. -/
def readAt (file : List UInt8) (off n : Nat) : Except FreezerError (List UInt8) :=
  if n = 0 then .ok []
  else if off + n ≤ file.length then .ok ((file.drop off).take n)
  else .error .eof

/-- `truncateFreezerFile`: `Truncate` cuts the file, or pads it with zeros. -/
def truncateFile (file : List UInt8) (size : Nat) : List UInt8 :=
  if size ≤ file.length then file.take size else file ++ List.replicate (size - file.length) 0

/-- `binary.BigEndian.PutUint16` and `PutUint32`: the low `width` bytes, most
significant first. -/
def putBigEndian : Nat → Nat → List UInt8
  | 0, _ => []
  | width + 1, v => (v / 256 ^ width % 256).toUInt8 :: putBigEndian width v

/-- `binary.BigEndian.Uint16` and `Uint32`. -/
def bigEndian (b : List UInt8) : Nat :=
  b.foldl (fun acc x => acc * 256 + x.toNat) 0

theorem foldl_bigEndian (b : List UInt8) (acc : Nat) :
    b.foldl (fun acc x => acc * 256 + x.toNat) acc = acc * 256 ^ b.length + bigEndian b := by
  induction b generalizing acc with
  | nil => simp [bigEndian]
  | cons x rest ih =>
    simp only [bigEndian, List.foldl_cons, Nat.zero_mul, Nat.zero_add, List.length_cons] at ih ⊢
    rw [ih, ih x.toNat]
    ring

@[simp]
theorem length_putBigEndian (width v : Nat) : (putBigEndian width v).length = width := by
  induction width with
  | zero => rfl
  | succ width ih => simp [putBigEndian, ih]

/-- The bytes `putBigEndian` writes read back as the value, cut to their width. -/
theorem bigEndian_putBigEndian (width v : Nat) : bigEndian (putBigEndian width v) = v % 256 ^ width := by
  induction width with
  | zero => simp [putBigEndian, bigEndian, Nat.mod_one]
  | succ width ih =>
    have first : ((v / 256 ^ width % 256).toUInt8).toNat = v / 256 ^ width % 256 := by
      simp only [Nat.toUInt8_eq, UInt8.toNat_ofNat']
      omega
    rw [putBigEndian, bigEndian, List.foldl_cons, Nat.zero_mul, Nat.zero_add, foldl_bigEndian, first, ih,
      length_putBigEndian, Nat.mod_pow_succ]
    ring

/-! ### Index entries -/

/-- `indexEntry`. -/
structure indexEntry where
  filenum : UInt32
  offset : UInt32
  deriving DecidableEq, Repr

/-- `indexEntrySize`. -/
def indexEntrySize : Nat := 6

/-- `marshallBinary`: the file number is stored in two bytes. -/
def indexEntry.marshallBinary (i : indexEntry) : List UInt8 :=
  putBigEndian 2 i.filenum.toUInt16.toNat ++ putBigEndian 4 i.offset.toNat

/-- `unmarshalBinary`. -/
def indexEntry.unmarshalBinary (b : List UInt8) : indexEntry :=
  ⟨UInt32.ofNat (bigEndian (b.take 2)), UInt32.ofNat (bigEndian ((b.drop 2).take 4))⟩

@[simp]
theorem length_marshallBinary (i : indexEntry) : i.marshallBinary.length = indexEntrySize := by
  simp [indexEntry.marshallBinary, indexEntrySize]

/-- An entry whose file number fits in two bytes reads back as written. -/
theorem unmarshalBinary_marshallBinary {i : indexEntry} (small : i.filenum.toNat < 2 ^ 16) :
    indexEntry.unmarshalBinary i.marshallBinary = i := by
  have first : (i.marshallBinary.take 2) = putBigEndian 2 i.filenum.toUInt16.toNat :=
    List.take_left' (length_putBigEndian _ _)
  have second : ((i.marshallBinary.drop 2).take 4) = putBigEndian 4 i.offset.toNat := by
    rw [indexEntry.marshallBinary, List.drop_left' (length_putBigEndian _ _),
      List.take_of_length_le (Nat.le_of_eq (length_putBigEndian _ _))]
  have offset := i.offset.toNat_lt
  rw [indexEntry.unmarshalBinary, first, second, bigEndian_putBigEndian, bigEndian_putBigEndian,
    UInt32.toNat_toUInt16, Nat.mod_eq_of_lt (by omega : i.filenum.toNat % 2 ^ 16 < 256 ^ 2),
    Nat.mod_eq_of_lt small, Nat.mod_eq_of_lt (by omega : i.offset.toNat < 256 ^ 4),
    UInt32.ofNat_toNat, UInt32.ofNat_toNat]

/-- In a file of entries, the one at position `i` starts at `i * indexEntrySize`. -/
theorem drop_flatten_marshallBinary : ∀ (entries : List indexEntry) (i : Nat),
    (entries.map indexEntry.marshallBinary).flatten.drop (i * indexEntrySize) =
      ((entries.drop i).map indexEntry.marshallBinary).flatten
  | [], _ => by simp
  | _ :: _, 0 => by simp
  | e :: entries, i + 1 => by
    rw [List.map_cons, List.flatten_cons, Nat.succ_mul, Nat.add_comm, ← List.drop_drop,
      List.drop_left' (length_marshallBinary e), drop_flatten_marshallBinary entries i, List.drop_succ_cons]

/-- Cutting a file of entries after `j` of them keeps the first `j`. -/
theorem take_flatten_marshallBinary : ∀ (entries : List indexEntry) (j : Nat),
    (entries.map indexEntry.marshallBinary).flatten.take (j * indexEntrySize) =
      ((entries.take j).map indexEntry.marshallBinary).flatten
  | [], _ => by simp
  | _ :: _, 0 => by simp
  | e :: entries, j + 1 => by
    rw [List.map_cons, List.flatten_cons, Nat.succ_mul, Nat.add_comm, List.take_append,
      List.take_of_length_le (by simp), length_marshallBinary, Nat.add_sub_cancel_left,
      take_flatten_marshallBinary entries j, List.take_succ_cons, List.map_cons, List.flatten_cons]

theorem length_flatten_marshallBinary (entries : List indexEntry) :
    (entries.map indexEntry.marshallBinary).flatten.length = entries.length * indexEntrySize := by
  induction entries with
  | nil => rfl
  | cons e entries ih => simp [ih, Nat.succ_mul, Nat.add_comm]

/-- Reading entry `i` of a file of entries. -/
theorem readAt_marshallBinary {entries : List indexEntry} {i : Nat} {e : indexEntry} (found : entries[i]? = some e) :
    readAt (entries.map indexEntry.marshallBinary).flatten (i * indexEntrySize) indexEntrySize =
      .ok e.marshallBinary := by
  have within := (List.getElem?_eq_some_iff.mp found).1
  have rest : entries.drop i = e :: entries.drop (i + 1) := by
    rw [List.drop_eq_getElem_cons within, (List.getElem?_eq_some_iff.mp found).2]
  have fits : i * indexEntrySize + indexEntrySize ≤ (entries.map indexEntry.marshallBinary).flatten.length := by
    rw [length_flatten_marshallBinary, ← Nat.succ_mul]
    exact Nat.mul_le_mul_right _ within
  rw [readAt, if_neg (by simp [indexEntrySize]), if_pos fits, drop_flatten_marshallBinary, rest, List.map_cons,
    List.flatten_cons, List.take_left' (length_marshallBinary e)]

/-! ### The table -/

/-- How `openFile` opens a file it does not hold yet. -/
inductive Opener
  /-- `openFreezerFileForAppend`: created if missing. -/
  | forAppend
  /-- `openFreezerFileTruncated`: created or emptied. -/
  | truncated
  /-- `openFreezerFileForReadOnly`: it must exist. -/
  | readOnly
  deriving DecidableEq, Repr

/-- The snappy codec. -/
structure Snappy where
  Encode : List UInt8 → List UInt8
  Decode : List UInt8 → Option (List UInt8)

/-- What the table stores for a blob. -/
def stored (codec : Snappy) (noCompression : Bool) (blob : List UInt8) : List UInt8 :=
  if noCompression then blob else codec.Encode blob

/-- `freezerTable`, without its locks, meters and logger. -/
structure freezerTable where
  items : Nat
  noCompression : Bool
  maxFileSize : UInt32
  /-- The data files on disk. -/
  disk : UInt32 → Option (List UInt8)
  /-- The open data files: the keys of `files`. -/
  files : UInt32 → Bool
  headId : UInt32
  /-- The index file. -/
  index : List UInt8
  itemOffset : UInt32
  headBytes : UInt32

namespace freezerTable

/-- `openFile`: a file already open is kept as it is. -/
def openFile (t : freezerTable) (num : UInt32) (opener : Opener) : Except FreezerError freezerTable :=
  if t.files num then .ok t
  else
    match opener with
    | .forAppend => .ok { t with
        disk := Function.update t.disk num (some ((t.disk num).getD []))
        files := Function.update t.files num true }
    | .truncated => .ok { t with
        disk := Function.update t.disk num (some [])
        files := Function.update t.files num true }
    | .readOnly =>
      if (t.disk num).isSome then .ok { t with files := Function.update t.files num true }
      else .error .notExist

/-- `releaseFile`: the file is closed and stays on disk. -/
def releaseFile (t : freezerTable) (num : UInt32) : freezerTable :=
  { t with files := Function.update t.files num false }

/-- `releaseFilesAfter`: the open files past `num` are closed, and deleted if `remove`. -/
def releaseFilesAfter (t : freezerTable) (num : UInt32) (remove : Bool) : freezerTable :=
  { t with
    files := fun g => t.files g && g ≤ num
    disk := fun g => if remove && t.files g && num < g then none else t.disk g }

/-- `t.head.Write(blob)`: the head file grows at its end. -/
def writeHead (t : freezerTable) (blob : List UInt8) : freezerTable :=
  { t with disk := Function.update t.disk t.headId (some ((t.disk t.headId).getD [] ++ blob)) }

/-- `Append`. -/
def Append (codec : Snappy) (t : freezerTable) (item : Nat) (blob : List UInt8) :
    Except FreezerError freezerTable := do
  if t.items ≠ item then throw (.unexpectedItem t.items item)
  let blob := if t.noCompression then blob else codec.Encode blob
  let bLen := UInt32.ofNat blob.length
  let t ← if t.headBytes + bLen < bLen ∨ t.headBytes + bLen > t.maxFileSize then do
      -- a new head file; the old head is reopened read-only, ignoring an error
      let nextID := t.headId + 1
      let t ← t.openFile nextID .truncated
      let t := t.releaseFile t.headId
      let t := match t.openFile t.headId .readOnly with
        | .ok t => t
        | .error _ => t
      pure { t with headBytes := 0, headId := nextID }
    else pure t
  let t := t.writeHead blob
  let newOffset := t.headBytes + bLen
  let idx : indexEntry := ⟨t.headId, newOffset⟩
  pure { t with headBytes := newOffset, index := t.index ++ idx.marshallBinary, items := t.items + 1 }

/-- `truncate`. -/
def truncate (t : freezerTable) (items : Nat) : Except FreezerError freezerTable := do
  if t.items ≤ items then return t
  let t := { t with index := truncateFile t.index ((items + 1) * indexEntrySize) }
  let buffer ← readAt t.index (items * indexEntrySize) indexEntrySize
  let expected := indexEntry.unmarshalBinary buffer
  let t ← if expected.filenum ≠ t.headId then do
      -- back to an older head file; the later files are deleted
      let t := t.releaseFile expected.filenum
      let t ← t.openFile expected.filenum .forAppend
      let t := t.releaseFilesAfter expected.filenum true
      pure { t with headId := expected.filenum }
    else pure t
  let t := { t with
    disk := Function.update t.disk t.headId (some (truncateFile ((t.disk t.headId).getD []) expected.offset.toNat)) }
  pure { t with items := items, headBytes := expected.offset }

/-- An `Append` that fits the head file writes there. -/
theorem Append_of_fits (codec : Snappy) (t : freezerTable) (blob : List UInt8)
    (fits : ¬(t.headBytes + UInt32.ofNat (stored codec t.noCompression blob).length <
        UInt32.ofNat (stored codec t.noCompression blob).length ∨
      t.headBytes + UInt32.ofNat (stored codec t.noCompression blob).length > t.maxFileSize)) :
    t.Append codec t.items blob = .ok { t with
      disk := Function.update t.disk t.headId (some ((t.disk t.headId).getD [] ++ stored codec t.noCompression blob))
      headBytes := t.headBytes + UInt32.ofNat (stored codec t.noCompression blob).length
      index := t.index ++ indexEntry.marshallBinary
        ⟨t.headId, t.headBytes + UInt32.ofNat (stored codec t.noCompression blob).length⟩
      items := t.items + 1 } := by
  simp only [Append, stored] at fits ⊢
  rw [if_neg (by simp), if_neg fits]
  rfl

/-- An `Append` that does not fit opens the next file as the head. -/
theorem Append_of_rotate (codec : Snappy) (t : freezerTable) (blob : List UInt8)
    (rotate : t.headBytes + UInt32.ofNat (stored codec t.noCompression blob).length <
        UInt32.ofNat (stored codec t.noCompression blob).length ∨
      t.headBytes + UInt32.ofNat (stored codec t.noCompression blob).length > t.maxFileSize)
    (fresh : t.files (t.headId + 1) = false) (head : t.files t.headId = true) (present : (t.disk t.headId).isSome) :
    t.Append codec t.items blob = .ok { t with
      disk := Function.update t.disk (t.headId + 1) (some (stored codec t.noCompression blob))
      files := Function.update t.files (t.headId + 1) true
      headId := t.headId + 1
      headBytes := UInt32.ofNat (stored codec t.noCompression blob).length
      index := t.index ++ indexEntry.marshallBinary
        ⟨t.headId + 1, UInt32.ofNat (stored codec t.noCompression blob).length⟩
      items := t.items + 1 } := by
  have next : t.headId ≠ t.headId + 1 := by
    intro same
    have := congrArg UInt32.toNat same
    rw [UInt32.toNat_add, UInt32.toNat_one] at this
    have := t.headId.toNat_lt
    omega
  simp only [Append, stored] at rotate ⊢
  rw [if_neg (by simp), if_pos rotate]
  simp only [openFile, fresh, Bool.false_eq_true, if_false, releaseFile, Function.update_self,
    Function.update_of_ne next, present, if_true, bind, Except.bind, pure, Except.pure, writeHead,
    Function.update_idem, Option.getD_some, List.nil_append, UInt32.zero_add]
  -- the old head is closed and opened again
  have reopened : Function.update (Function.update t.files (t.headId + 1) true) t.headId true =
      Function.update t.files (t.headId + 1) true :=
    Function.update_eq_self_iff.mpr (by rw [Function.update_of_ne next, head])
  rw [reopened]

/-- `getBounds`: start, end and file number; a blob that starts a new file
starts at its offset `0`. -/
def getBounds (t : freezerTable) (item : Nat) : Except FreezerError (UInt32 × UInt32 × UInt32) := do
  let startIdx := indexEntry.unmarshalBinary (← readAt t.index (item * indexEntrySize) indexEntrySize)
  let endIdx := indexEntry.unmarshalBinary (← readAt t.index ((item + 1) * indexEntrySize) indexEntrySize)
  if startIdx.filenum ≠ endIdx.filenum then return (0, endIdx.offset, endIdx.filenum)
  return (startIdx.offset, endIdx.offset, endIdx.filenum)

/-- `Retrieve`. -/
def Retrieve (codec : Snappy) (t : freezerTable) (item : Nat) : Except FreezerError (List UInt8) := do
  if t.items ≤ item then throw .errOutOfBounds
  let offset := t.itemOffset
  if offset.toNat > item then throw .errOutOfBounds
  let (startOffset, endOffset, filenum) ← t.getBounds (item - offset.toNat)
  if !t.files filenum then throw (.missingDataFile filenum)
  let blob ← readAt ((t.disk filenum).getD []) startOffset.toNat (endOffset - startOffset).toNat
  if t.noCompression then return blob
  match codec.Decode blob with
  | some blob => return blob
  | none => throw .corrupt

end freezerTable

/-- The table `newCustomTable` opens in an empty directory: `repair` writes the
zero entry and opens the empty data file `0` as the head. -/
def newTable (maxFileSize : UInt32) (noCompression : Bool) : freezerTable where
  items := 0
  noCompression := noCompression
  maxFileSize := maxFileSize
  disk := fun g => if g = 0 then some [] else none
  files := fun g => g = 0
  headId := 0
  index := indexEntry.marshallBinary ⟨0, 0⟩
  itemOffset := 0
  headBytes := 0

/-! ### Runs -/

/-- The calls of a run: `Append` with the next item number, and `truncate`. -/
inductive Op
  | Append (blob : List UInt8)
  | truncate (items : Nat)

namespace freezerTable

/-- One call. -/
def step (codec : Snappy) (t : freezerTable) : Op → Except FreezerError freezerTable
  | .Append blob => t.Append codec t.items blob
  | .truncate items => t.truncate items

/-- A run of calls, stopping at the first error. -/
def run (codec : Snappy) : freezerTable → List Op → Except FreezerError freezerTable
  | t, [] => .ok t
  | t, op :: ops => do
    let t ← t.step codec op
    t.run codec ops

/-- The tables a run passes through, up to the first error. -/
def trace (codec : Snappy) : freezerTable → List Op → List freezerTable
  | _, [] => []
  | t, op :: ops =>
    match t.step codec op with
    | .ok t' => t' :: t'.trace codec ops
    | .error _ => []

end freezerTable

/-- The blobs a run leaves, as the table should return them. -/
def Op.apply : List (List UInt8) → Op → List (List UInt8)
  | blobs, .Append blob => blobs ++ [blob]
  | blobs, .truncate items => blobs.take items

end Ebakus.Core.Rawdb
