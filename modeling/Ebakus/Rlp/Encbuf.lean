/-
# The encoding buffer (`rlp/encode.go`)

The encoder does not write a list's header when the list starts, since the
size of its payload is not known yet. It writes all string data into one flat
buffer `str`, and records for each list a `listhead`: the offset in `str` where
the header belongs, and, once the list ends, the payload size. `listEnd` finds
that size from the buffer's growth since the list began, counting the headers
of the nested lists through `lhsize`, the total size of the headers recorded so
far. Three back ends then splice the headers back in at their offsets: `toBytes`
into one buffer of the precomputed `size`, `toWriter` through an `io.Writer`, and
`encReader`, which hands out the same pieces across reads of any sizes.

The values are the part of the type fragment the writers reduce to: byte
strings, booleans, unsigned and big integers, and lists (slices and structs)
of values. `Value.encode` is the recursive definition of RLP. Each back end,
run on the buffer the writer leaves, produces exactly that encoding.

An `io.Writer` is modelled by the bytes written to it, and never fails. A
list header is a value in the list `lheads` and `list` returns its index,
which stands for the pointer the code keeps.
-/

import Ebakus.Rlp.Encode

namespace Ebakus.Rlp

open Ebakus.Lang

/-! ### The buffer -/

/-- `listhead`: where a list's header goes in the string data, and the
payload size (until `listEnd`, the header size recorded when the list began). -/
structure listhead where
  offset : Nat
  size : Nat
  deriving DecidableEq, Repr

/-- `head.encode`. -/
def listhead.encode (head : listhead) : List UInt8 :=
  puthead 0xC0 0xF7 head.size

/-- `encbuf`, without the auxiliary `sizebuf`. -/
structure encbuf where
  str : List UInt8
  lheads : List listhead
  lhsize : Nat
  deriving DecidableEq, Repr

/-- The buffer after `reset`. -/
def encbuf.empty : encbuf :=
  ⟨[], [], 0⟩

/-- `intsize`: the number of bytes of `i`, at least one. -/
def intsize (i : Nat) : Nat :=
  if i / 256 = 0 then 1 else intsize (i / 256) + 1
termination_by i
decreasing_by omega

/-- `w.Write(b)`, and every `append` to `w.str`. -/
def encbuf.Write (w : encbuf) (b : List UInt8) : encbuf :=
  { w with str := w.str ++ b }

/-- `w.encodeString(b)`. -/
def encbuf.encodeString (w : encbuf) (b : List UInt8) : encbuf :=
  w.Write (Ebakus.Rlp.encodeString b)

/-- `w.size()`. -/
def encbuf.size (w : encbuf) : Nat :=
  w.str.length + w.lhsize

/-- `w.list()`: a new header at the end of the string data, holding the
header size so far; the index of the header stands for its pointer. -/
def encbuf.list (w : encbuf) : encbuf × Nat :=
  ({ w with lheads := w.lheads ++ [⟨w.str.length, w.lhsize⟩] }, w.lheads.length)

/-- `w.listEnd(lh)`. -/
def encbuf.listEnd (w : encbuf) (lh : Nat) : encbuf :=
  let head := w.lheads.getD lh ⟨0, 0⟩
  let size := w.size - head.offset - head.size
  { w with
    lheads := w.lheads.set lh ⟨head.offset, size⟩
    lhsize := if size < 56 then w.lhsize + 1 else w.lhsize + 1 + intsize size }

/-! ### The writers -/

/-- `writeBool`. -/
def writeBool (b : Bool) : List UInt8 :=
  if b then [0x01] else [0x80]

/-- The values of the type fragment. -/
inductive Value where
  /-- A byte slice or array, written by `writeBytes`. -/
  | bytes (b : List UInt8)
  | bool (b : Bool)
  | uint (i : UInt64)
  /-- A non-negative `big.Int`. -/
  | bigInt (n : Nat)
  /-- A slice or a struct, written between `list` and `listEnd`. -/
  | list (items : List Value)
  deriving Repr

mutual

/-- `encbuf.encode`: the writer of each value. -/
def writeValue : Value → encbuf → encbuf
  | .bytes b, w => w.encodeString b
  | .bool b, w => w.Write (writeBool b)
  | .uint i, w => w.Write (writeUint i)
  | .bigInt n, w => w.Write (writeBigInt n)
  | .list items, w =>
    let (w, lh) := w.list
    (writeItems items w).listEnd lh

/-- The items of a list, in order. -/
def writeItems : List Value → encbuf → encbuf
  | [], w => w
  | v :: vs, w => writeItems vs (writeValue v w)

end

/-! ### The back ends -/

/-- `str[lo:hi]`, within the string data. -/
def strSlice (str : List UInt8) (lo hi : Nat) : Go (List UInt8) :=
  if lo ≤ hi ∧ hi ≤ str.length then .ok ((str.drop lo).take (hi - lo)) else .error .sliceBoundsOutOfRange

/-- `copy(dst[pos:], src)`: the bytes that fit, and how many. -/
def copyAt (dst : List UInt8) (pos : Nat) (src : List UInt8) : Go (List UInt8 × Nat) :=
  if pos ≤ dst.length then
    let n := min (dst.length - pos) src.length
    .ok (dst.take pos ++ src.take n ++ dst.drop (pos + n), n)
  else .error .sliceBoundsOutOfRange

/-- `head.encode(out[pos:])`: `puthead` writes into the slice, which must hold
the header. -/
def encodeAt (head : listhead) (out : List UInt8) (pos : Nat) : Go (List UInt8 × Nat) :=
  if pos ≤ out.length then
    if pos + head.encode.length ≤ out.length then
      .ok (out.take pos ++ head.encode ++ out.drop (pos + head.encode.length), head.encode.length)
    else .error .indexOutOfRange
  else .error .sliceBoundsOutOfRange

/-- The loop of `toBytes` over the headers. -/
def toBytesLoop (str : List UInt8) : List listhead → Nat → Nat → List UInt8 → Go (List UInt8)
  | [], strpos, pos, out => do
    -- copy string data after the last list header
    let src ← strSlice str strpos str.length
    let (out, _) ← copyAt out pos src
    return out
  | head :: heads, strpos, pos, out => do
    let src ← strSlice str strpos head.offset
    let (out, n) ← copyAt out pos src
    let (out, m) ← encodeAt head out (pos + n)
    toBytesLoop str heads (strpos + n) (pos + n + m) out

/-- `w.toBytes()`: the headers spliced into a buffer of `w.size()` bytes. -/
def encbuf.toBytes (w : encbuf) : Go (List UInt8) :=
  toBytesLoop w.str w.lheads 0 0 (List.replicate w.size 0)

/-- The loop of `toWriter`, after `out` holds the bytes written so far. -/
def toWriterLoop (str : List UInt8) : List listhead → Nat → List UInt8 → Go (List UInt8)
  | [], strpos, out =>
    if strpos < str.length then do
      let src ← strSlice str strpos str.length
      return out ++ src
    else return out
  | head :: heads, strpos, out => do
    let (strpos, out) ← if head.offset - strpos > 0 then do
        let src ← strSlice str strpos head.offset
        pure (strpos + src.length, out ++ src)
      else pure (strpos, out)
    toWriterLoop str heads strpos (out ++ head.encode)

/-- `w.toWriter(out)`, into a writer that already holds `out`. -/
def encbuf.toWriter (w : encbuf) (out : List UInt8) : Go (List UInt8) :=
  toWriterLoop w.str w.lheads 0 out

/-- `encReader`: the buffer until the end is read, the next header, the
position in the string data, and what is left of the last piece. -/
structure encReader where
  buf : Option encbuf
  lhpos : Nat
  strpos : Nat
  piece : Option (List UInt8)

/-- `r.next()`: the next piece, or none at the end. -/
def encReader.next (r : encReader) : Go (Option (List UInt8) × encReader) :=
  match r.buf, r.piece with
  | none, _ => .ok (none, r)
  | some _, some piece => .ok (some piece, r)
  | some buf, none =>
    match buf.lheads[r.lhpos]? with
    | some head =>
      -- string data before the header, then the header
      let sizebefore := head.offset - r.strpos
      if sizebefore > 0 then do
        let p ← strSlice buf.str r.strpos head.offset
        .ok (some p, { r with strpos := r.strpos + sizebefore })
      else .ok (some head.encode, { r with lhpos := r.lhpos + 1 })
    | none =>
      if r.strpos < buf.str.length then do
        let p ← strSlice buf.str r.strpos buf.str.length
        .ok (some p, { r with strpos := buf.str.length })
      else .ok (none, r)

theorem strSlice_of_le {str : List UInt8} {lo hi : Nat} (le : lo ≤ hi) (within : hi ≤ str.length) :
    strSlice str lo hi = .ok ((str.drop lo).take (hi - lo)) :=
  if_pos ⟨le, within⟩

theorem bounds_of_strSlice {str s : List UInt8} {lo hi : Nat} (ok : strSlice str lo hi = .ok s) :
    lo ≤ hi ∧ hi ≤ str.length := by
  unfold strSlice at ok
  split at ok
  · assumption
  · cases ok

/-- What the reader has still to hand out, as pieces; each read takes at least one. -/
def encReader.pieces (r : encReader) : Nat :=
  match r.buf with
  | none => 0
  | some buf => (if r.piece.isSome then 1 else 0) + (buf.lheads.length - r.lhpos) + (buf.str.length - r.strpos)

/-- A piece `next` hands out is one fewer piece to go. -/
theorem encReader.pieces_next {r r' : encReader} {p : List UInt8} (next : r.next = .ok (some p, r')) :
    { r' with piece := none }.pieces < r.pieces := by
  obtain ⟨buf, lhpos, strpos, piece⟩ := r
  rcases buf with _ | buf
  · cases next
  rcases piece with _ | piece
  · -- a fresh piece: string data before a header, the header, or the tail
    simp only [encReader.next] at next
    split at next
    · next head found =>
      have within := (List.getElem?_eq_some_iff.mp found).1
      split at next
      · cases slice : strSlice buf.str strpos head.offset with
        | error e =>
          rw [slice] at next
          cases next
        | ok s =>
          have bounded := (bounds_of_strSlice slice).2
          rw [slice, Lang.ok_bind] at next
          cases next
          simp only [encReader.pieces, Option.isSome_none, Bool.false_eq_true, if_false]
          omega
      · cases next
        simp only [encReader.pieces, Option.isSome_none, Bool.false_eq_true, if_false]
        omega
    · split at next
      · next inside =>
        cases slice : strSlice buf.str strpos buf.str.length with
        | error e =>
          rw [slice] at next
          cases next
        | ok s =>
          rw [slice, Lang.ok_bind] at next
          cases next
          simp only [encReader.pieces, Option.isSome_none, Bool.false_eq_true, if_false]
          omega
      · cases next
  · cases next
    simp only [encReader.pieces, Option.isSome_none, Option.isSome_some, Bool.false_eq_true, if_false, if_true]
    omega

/-- The loop of `r.Read(b)` for a buffer of `k` bytes, `got` of them filled:
the bytes read, whether the end was reached, and the reader after. -/
def encReader.readLoop (k : Nat) (got : List UInt8) (r : encReader) : Go ((List UInt8 × Bool) × encReader) :=
  match _fetched : r.next with
  | .error e => .error e
  | .ok (none, r) => .ok ((got, true), { r with buf := none, piece := none })
  | .ok (some p, r) =>
    let nn := min (k - got.length) p.length
    if nn < p.length then .ok ((got ++ p.take nn, false), { r with piece := some (p.drop nn) })
    else readLoop k (got ++ p) { r with piece := none }
termination_by r.pieces
decreasing_by exact encReader.pieces_next _fetched

/-- `r.Read(b)` for a buffer of `k` bytes. -/
def encReader.Read (r : encReader) (k : Nat) : Go ((List UInt8 × Bool) × encReader) :=
  r.readLoop k []

/-- A caller reading with buffers of the given sizes until the end: the bytes
read, and whether the end was reached. -/
def readAll : List Nat → encReader → Go (List UInt8 × Bool)
  | [], _ => .ok ([], false)
  | k :: ks, r => do
    let ((got, eof), r) ← r.Read k
    if eof then return (got, true)
    else do
      let (more, eof) ← readAll ks r
      return (got ++ more, eof)

/-! ### The entry points -/

/-- `EncodeToBytes(val)`. -/
def EncodeToBytes (val : Value) : Go (List UInt8) :=
  (writeValue val encbuf.empty).toBytes

/-- `Encode(w, val)`, to a writer that already holds `out`. -/
def Encode (out : List UInt8) (val : Value) : Go (List UInt8) :=
  (writeValue val encbuf.empty).toWriter out

/-- `EncodeToReader(val)`: the size and the reader. -/
def EncodeToReader (val : Value) : Nat × encReader :=
  let eb := writeValue val encbuf.empty
  (eb.size, ⟨some eb, 0, 0, none⟩)

/-! ### The recursive definition -/

mutual

/-- The RLP encoding of a value: a string's header and bytes, or one byte
below `0x80`; a list's header and the encodings of its items. -/
def Value.encode : Value → List UInt8
  | .bytes b => encodeString b
  | .bool b => encodeString (if b then [0x01] else [])
  | .uint i => encodeString (bigBytes i.toNat)
  | .bigInt n => encodeString (bigBytes n)
  | .list items => encodeList (Value.encodeItems items)

/-- The encodings of the items, one after another. -/
def Value.encodeItems : List Value → List UInt8
  | [] => []
  | v :: vs => v.encode ++ Value.encodeItems vs

end

/-! ### Header sizes -/

/-- `intsize` counts the bytes `putint` writes. -/
theorem intsize_eq (i : Nat) : intsize i = (putint i).length := by
  induction i using Nat.strongRecOn with
  | _ i ih =>
    rw [intsize]
    split
    · next small =>
      by_cases zero : i = 0
      · subst zero
        rfl
      · rw [putint, if_neg zero, bigBytes_of_pos (Nat.pos_of_ne_zero zero), small, bigBytes_zero]
        rfl
    · next large =>
      have pos : 0 < i := by omega
      rw [ih (i / 256) (by omega), putint, putint, if_neg (by omega), if_neg (by omega), bigBytes_of_pos pos,
        List.length_append, List.length_singleton]

/-- The size of a list header, as `listEnd` adds it to `lhsize`. -/
theorem length_encode (head : listhead) :
    head.encode.length = if head.size < 56 then 1 else 1 + intsize head.size := by
  unfold listhead.encode puthead
  split
  · rfl
  · rw [List.length_cons, intsize_eq]
    omega

/-- The total size of some headers. -/
def headBytes (heads : List listhead) : Nat :=
  (heads.map fun head => head.encode.length).sum

@[simp]
theorem headBytes_nil : headBytes [] = 0 := rfl

@[simp]
theorem headBytes_cons (head : listhead) (heads : List listhead) :
    headBytes (head :: heads) = head.encode.length + headBytes heads := by
  simp [headBytes]

@[simp]
theorem headBytes_append (heads more : List listhead) :
    headBytes (heads ++ more) = headBytes heads + headBytes more := by
  simp [headBytes]

/-! ### What the writer leaves -/

mutual

/-- The string data a value's writer appends. -/
def Value.data : Value → List UInt8
  | .bytes b => encodeString b
  | .bool b => writeBool b
  | .uint i => writeUint i
  | .bigInt n => writeBigInt n
  | .list items => Value.itemsData items

/-- The string data of the items. -/
def Value.itemsData : List Value → List UInt8
  | [] => []
  | v :: vs => v.data ++ Value.itemsData vs

end

mutual

/-- The list headers a value's writer records, when its string data starts
at offset `base`: a list's own header first, with the size of its payload. -/
def Value.heads (base : Nat) : Value → List listhead
  | .list items => ⟨base, (Value.encodeItems items).length⟩ :: Value.itemsHeads base items
  | _ => []

/-- The list headers of the items. -/
def Value.itemsHeads (base : Nat) : List Value → List listhead
  | [] => []
  | v :: vs => v.heads base ++ Value.itemsHeads (base + v.data.length) vs

end

/-- `writeBool` writes the string of one byte `1`, or the empty string. -/
theorem writeBool_eq (b : Bool) : writeBool b = encodeString (if b then [0x01] else []) := by
  cases b <;> rfl

mutual

/-- A value's string data and headers add up to its encoding. -/
theorem Value.length_data_add : ∀ (v : Value) (base : Nat),
    v.data.length + headBytes (v.heads base) = v.encode.length
  | .bytes _, _ => by simp [Value.data, Value.heads, Value.encode]
  | .bool b, _ => by simp [Value.data, Value.heads, Value.encode, writeBool_eq]
  | .uint i, _ => by simp [Value.data, Value.heads, Value.encode, writeUint_eq]
  | .bigInt n, _ => by simp [Value.data, Value.heads, Value.encode, writeBigInt_eq]
  | .list items, base => by
    have payload := Value.length_itemsData_add items base
    simp only [Value.data, Value.heads, Value.encode, encodeList, headBytes_cons, List.length_append,
      listhead.encode]
    omega

/-- The same of the items of a list. -/
theorem Value.length_itemsData_add : ∀ (items : List Value) (base : Nat),
    (Value.itemsData items).length + headBytes (Value.itemsHeads base items) = (Value.encodeItems items).length
  | [], _ => rfl
  | v :: vs, base => by
    have first := Value.length_data_add v base
    have rest := Value.length_itemsData_add vs (base + v.data.length)
    simp only [Value.itemsData, Value.itemsHeads, Value.encodeItems, headBytes_append, List.length_append]
    omega

end

mutual

/-- The writer appends a value's string data and records its headers, whose
sizes `lhsize` then counts. -/
theorem writeValue_eq : ∀ (v : Value) (w : encbuf), writeValue v w =
    ⟨w.str ++ v.data, w.lheads ++ v.heads w.str.length, w.lhsize + headBytes (v.heads w.str.length)⟩
  | .bytes _, w => by simp [writeValue, encbuf.encodeString, encbuf.Write, Value.data, Value.heads]
  | .bool _, w => by simp [writeValue, encbuf.Write, Value.data, Value.heads]
  | .uint _, w => by simp [writeValue, encbuf.Write, Value.data, Value.heads]
  | .bigInt _, w => by simp [writeValue, encbuf.Write, Value.data, Value.heads]
  | .list items, w => by
    have payload := Value.length_itemsData_add items w.str.length
    have header := length_encode ⟨w.str.length, (Value.encodeItems items).length⟩
    rw [writeValue, encbuf.list]
    dsimp only
    rw [writeItems_eq items]
    -- `listEnd` finds the header where `list` put it, and sets the payload size
    have opened : (w.lheads ++ [(⟨w.str.length, w.lhsize⟩ : listhead)] ++ Value.itemsHeads w.str.length items).getD
        w.lheads.length ⟨0, 0⟩ = ⟨w.str.length, w.lhsize⟩ := by
      simp [List.getD_eq_getElem?_getD]
    have closed : (w.lheads ++ [(⟨w.str.length, w.lhsize⟩ : listhead)] ++ Value.itemsHeads w.str.length items).set
        w.lheads.length ⟨w.str.length, (Value.encodeItems items).length⟩ =
          w.lheads ++ [⟨w.str.length, (Value.encodeItems items).length⟩] ++ Value.itemsHeads w.str.length items := by
      simp [List.set_append_right]
    have size : w.str.length + (Value.itemsData items).length +
        (w.lhsize + headBytes (Value.itemsHeads w.str.length items)) - w.str.length - w.lhsize =
          (Value.encodeItems items).length := by
      omega
    simp only [encbuf.listEnd, encbuf.size, List.length_append, opened, size, closed]
    simp only [Value.data, Value.heads, headBytes_cons, header, List.append_assoc, List.singleton_append,
      encbuf.mk.injEq, true_and]
    split <;> omega

/-- The writer of the items appends theirs, one after another. -/
theorem writeItems_eq : ∀ (items : List Value) (w : encbuf), writeItems items w =
    ⟨w.str ++ Value.itemsData items, w.lheads ++ Value.itemsHeads w.str.length items,
      w.lhsize + headBytes (Value.itemsHeads w.str.length items)⟩
  | [], w => by simp [writeItems, Value.itemsData, Value.itemsHeads]
  | v :: vs, w => by
    rw [writeItems, writeValue_eq v w, writeItems_eq vs]
    simp only [Value.itemsData, Value.itemsHeads, List.append_assoc, List.length_append, headBytes_append,
      Nat.add_assoc]

end

/-! ### Splicing the headers in -/

/-- The string data from `pos` on, with each header put at its offset: what
all three back ends produce. -/
def splice (str : List UInt8) : List listhead → Nat → List UInt8
  | [], pos => str.drop pos
  | head :: heads, pos => (str.drop pos).take (head.offset - pos) ++ head.encode ++ splice str heads head.offset

/-- The headers' offsets rise from `pos` and stay within the string data. -/
def Fits (str : List UInt8) : List listhead → Nat → Prop
  | [], pos => pos ≤ str.length
  | head :: heads, pos => pos ≤ head.offset ∧ Fits str heads head.offset

theorem Fits.le_length {str : List UInt8} : ∀ {heads : List listhead} {pos : Nat}, Fits str heads pos → pos ≤ str.length
  | [], _, fits => fits
  | _ :: _, _, ⟨le, fits⟩ => Nat.le_trans le fits.le_length

theorem Fits.mono {str : List UInt8} {heads : List listhead} {pos pos' : Nat} (fits : Fits str heads pos)
    (le : pos' ≤ pos) : Fits str heads pos' := by
  cases heads with
  | nil => exact Nat.le_trans le fits
  | cons head heads => exact ⟨Nat.le_trans le fits.1, fits.2⟩

/-- String data `data` at `pos`, before any header, comes out first. -/
theorem splice_of_data {str data : List UInt8} {pos : Nat} {heads : List listhead}
    (at_pos : str.drop pos = data ++ str.drop (pos + data.length))
    (after : ∀ head ∈ heads, pos + data.length ≤ head.offset) :
    splice str heads pos = data ++ splice str heads (pos + data.length) := by
  cases heads with
  | nil => exact at_pos
  | cons head heads =>
    have le := after head List.mem_cons_self
    rw [splice, splice, at_pos, List.take_append, List.take_of_length_le (by omega), List.append_assoc,
      List.append_assoc, List.append_assoc]
    congr 3
    omega

mutual

/-- A value's headers sit at or after the start of its string data. -/
theorem Value.le_offset_heads : ∀ (v : Value) (base : Nat), ∀ head ∈ v.heads base, base ≤ head.offset
  | .bytes _, _ => by simp [Value.heads]
  | .bool _, _ => by simp [Value.heads]
  | .uint _, _ => by simp [Value.heads]
  | .bigInt _, _ => by simp [Value.heads]
  | .list items, base => by
    intro head mem
    rcases List.mem_cons.mp mem with own | inner
    · subst own
      exact Nat.le_refl base
    · exact Value.le_offset_itemsHeads items base head inner

/-- The same of the items. -/
theorem Value.le_offset_itemsHeads : ∀ (items : List Value) (base : Nat), ∀ head ∈ Value.itemsHeads base items,
    base ≤ head.offset
  | [], _ => by simp [Value.itemsHeads]
  | v :: vs, base => by
    intro head mem
    rcases List.mem_append.mp mem with first | rest
    · exact Value.le_offset_heads v base head first
    · exact Nat.le_trans (Nat.le_add_right _ _) (Value.le_offset_itemsHeads vs _ head rest)

end

/-- A value other than a list leaves its encoding as string data. -/
theorem Value.data_of_heads_nil : ∀ {v : Value} {base : Nat}, v.heads base = [] → v.data = v.encode
  | .bytes _, _, _ => rfl
  | .bool b, _, _ => writeBool_eq b
  | .uint i, _, _ => writeUint_eq i
  | .bigInt n, _, _ => writeBigInt_eq n
  | .list _, _, own => by simp [Value.heads] at own

/-- A value without headers is its own encoding in the string data. -/
theorem splice_heads_of_nil {v : Value} {str : List UInt8} {pos : Nat} {rest : List listhead}
    (own : v.heads pos = []) (at_pos : str.drop pos = v.data ++ str.drop (pos + v.data.length))
    (after : ∀ head ∈ rest, pos + v.data.length ≤ head.offset) :
    splice str (v.heads pos ++ rest) pos = v.encode ++ splice str rest (pos + v.data.length) := by
  rw [own, List.nil_append, splice_of_data at_pos after, Value.data_of_heads_nil own]

mutual

/-- Where a value's string data sits, splicing its headers in gives its
encoding, and splicing goes on after it. -/
theorem Value.splice_heads : ∀ (v : Value) {str : List UInt8} {pos : Nat} {rest : List listhead},
    str.drop pos = v.data ++ str.drop (pos + v.data.length) →
    (∀ head ∈ rest, pos + v.data.length ≤ head.offset) →
    splice str (v.heads pos ++ rest) pos = v.encode ++ splice str rest (pos + v.data.length)
  | .list items, str, pos, rest, at_pos, after => by
    have inner := Value.splice_itemsHeads items at_pos after
    simp only [Value.heads, Value.data, Value.encode, encodeList, List.cons_append, splice, Nat.sub_self,
      List.take_zero, List.nil_append, inner, List.append_assoc]
    rfl
  | .bytes _, _, _, _, at_pos, after => splice_heads_of_nil rfl at_pos after
  | .bool _, _, _, _, at_pos, after => splice_heads_of_nil rfl at_pos after
  | .uint _, _, _, _, at_pos, after => splice_heads_of_nil rfl at_pos after
  | .bigInt _, _, _, _, at_pos, after => splice_heads_of_nil rfl at_pos after

/-- The same of the items of a list, one after another. -/
theorem Value.splice_itemsHeads : ∀ (items : List Value) {str : List UInt8} {pos : Nat} {rest : List listhead},
    str.drop pos = Value.itemsData items ++ str.drop (pos + (Value.itemsData items).length) →
    (∀ head ∈ rest, pos + (Value.itemsData items).length ≤ head.offset) →
    splice str (Value.itemsHeads pos items ++ rest) pos =
      Value.encodeItems items ++ splice str rest (pos + (Value.itemsData items).length)
  | [], _, _, _, _, _ => rfl
  | v :: vs, str, pos, rest, at_pos, after => by
    simp only [Value.itemsData, List.length_append, List.append_assoc] at at_pos after
    -- the first item's data, then the others' from its end
    have later : str.drop (pos + v.data.length) =
        Value.itemsData vs ++ str.drop (pos + v.data.length + (Value.itemsData vs).length) := by
      rw [← Nat.add_assoc] at at_pos
      have := congrArg (List.drop v.data.length) at_pos
      rwa [List.drop_drop, List.drop_left] at this
    have first : str.drop pos = v.data ++ str.drop (pos + v.data.length) := by
      rw [later, at_pos, Nat.add_assoc]
    have behind : ∀ head ∈ Value.itemsHeads (pos + v.data.length) vs ++ rest, pos + v.data.length ≤ head.offset := by
      intro head mem
      rcases List.mem_append.mp mem with inner | outer
      · exact Value.le_offset_itemsHeads vs _ head inner
      · have := after head outer
        omega
    rw [Value.itemsHeads, List.append_assoc, Value.splice_heads v first behind,
      Value.splice_itemsHeads vs later (fun head mem => by have := after head mem; omega)]
    simp only [Value.encodeItems, Value.itemsData, List.length_append, List.append_assoc, Nat.add_assoc]

end

mutual

/-- A value's headers fit its string data, before the headers after it. -/
theorem Value.fits_heads : ∀ (v : Value) {str : List UInt8} {pos : Nat} {rest : List listhead},
    Fits str rest (pos + v.data.length) → Fits str (v.heads pos ++ rest) pos
  | .list items, _, pos, _, fits => ⟨Nat.le_refl pos, Value.fits_itemsHeads items fits⟩
  | .bytes _, _, _, _, fits => fits.mono (Nat.le_add_right _ _)
  | .bool _, _, _, _, fits => fits.mono (Nat.le_add_right _ _)
  | .uint _, _, _, _, fits => fits.mono (Nat.le_add_right _ _)
  | .bigInt _, _, _, _, fits => fits.mono (Nat.le_add_right _ _)

/-- The same of the items. -/
theorem Value.fits_itemsHeads : ∀ (items : List Value) {str : List UInt8} {pos : Nat} {rest : List listhead},
    Fits str rest (pos + (Value.itemsData items).length) → Fits str (Value.itemsHeads pos items ++ rest) pos
  | [], _, _, _, fits => fits
  | v :: vs, _, _, _, fits => by
    rw [Value.itemsHeads, List.append_assoc]
    apply Value.fits_heads v
    apply Value.fits_itemsHeads vs
    simpa only [Value.itemsData, List.length_append, Nat.add_assoc] using fits

end

/-- The buffer the writer leaves for a value, from the reset buffer. -/
theorem writeValue_empty (v : Value) :
    writeValue v encbuf.empty = ⟨v.data, v.heads 0, headBytes (v.heads 0)⟩ := by
  simp [writeValue_eq, encbuf.empty]

/-- Splicing the headers into what the writer leaves gives the encoding. -/
theorem splice_data_heads (v : Value) : splice v.data (v.heads 0) 0 = v.encode := by
  have whole : splice v.data (v.heads 0 ++ []) 0 = v.encode ++ splice v.data [] (0 + v.data.length) :=
    Value.splice_heads v (by simp) (by simp)
  simpa [splice] using whole

theorem fits_data_heads (v : Value) : Fits v.data (v.heads 0) 0 := by
  have whole : Fits v.data (v.heads 0 ++ []) 0 := Value.fits_heads v (show 0 + v.data.length ≤ v.data.length by omega)
  simpa using whole

/-- `w.size()` after writing a value is the length of its encoding. -/
theorem size_writeValue (v : Value) : (writeValue v encbuf.empty).size = v.encode.length := by
  rw [writeValue_empty, encbuf.size, Value.length_data_add v 0]

/-! ### `toBytes` and `toWriter` -/

theorem copyAt_prefix (pre tail src : List UInt8) (fits : src.length ≤ tail.length) :
    copyAt (pre ++ tail) pre.length src = .ok (pre ++ src ++ tail.drop src.length, src.length) := by
  simp only [copyAt, List.length_append, Nat.le_add_right, if_true, Nat.add_sub_cancel_left, Nat.min_eq_right fits]
  simp [List.drop_append]

theorem encodeAt_prefix (head : listhead) (pre tail : List UInt8) (fits : head.encode.length ≤ tail.length) :
    encodeAt head (pre ++ tail) pre.length =
      .ok (pre ++ head.encode ++ tail.drop head.encode.length, head.encode.length) := by
  simp only [encodeAt, List.length_append, Nat.le_add_right, if_true, Nat.add_le_add_iff_left, fits]
  simp [List.drop_append]

/-- `toBytes`'s loop fills the room left in its buffer with the string data
and the headers spliced in. -/
theorem toBytesLoop_eq (str : List UInt8) : ∀ (heads : List listhead) (strpos : Nat) (pre tail : List UInt8),
    Fits str heads strpos → tail.length = (splice str heads strpos).length →
    toBytesLoop str heads strpos pre.length (pre ++ tail) = .ok (pre ++ splice str heads strpos)
  | [], strpos, pre, tail, fits, room => by
    have whole : (str.drop strpos).take (str.length - strpos) = str.drop strpos :=
      List.take_of_length_le (by simp)
    rw [splice] at room ⊢
    rw [toBytesLoop, strSlice_of_le fits (Nat.le_refl _), whole, Lang.ok_bind,
      copyAt_prefix pre tail _ (Nat.le_of_eq room.symm), Lang.ok_bind]
    simp only [← room, List.drop_length, List.append_nil, pure_eq_ok]
  | head :: heads, strpos, pre, tail, ⟨le, fits⟩, room => by
    have within := fits.le_length
    have chunk : ((str.drop strpos).take (head.offset - strpos)).length = head.offset - strpos := by
      simp only [List.length_take, List.length_drop]
      omega
    rw [splice] at room ⊢
    simp only [List.length_append, chunk] at room
    rw [toBytesLoop, strSlice_of_le le within, Lang.ok_bind, copyAt_prefix pre tail _ (by omega), Lang.ok_bind]
    dsimp only
    generalize (str.drop strpos).take (head.offset - strpos) = data at chunk ⊢
    -- the data before the header, the header, then the rest of the room
    rw [← List.length_append, encodeAt_prefix head (pre ++ data) _ (by simp only [List.length_drop]; omega),
      Lang.ok_bind, show strpos + data.length = head.offset by omega, ← List.length_append]
    dsimp only
    rw [toBytesLoop_eq str heads head.offset _ _ fits (by simp only [List.length_drop]; omega)]
    simp only [List.append_assoc]

/-- `toWriter`'s loop writes the string data with the headers spliced in. -/
theorem toWriterLoop_eq (str : List UInt8) : ∀ (heads : List listhead) (strpos : Nat) (out : List UInt8),
    Fits str heads strpos → toWriterLoop str heads strpos out = .ok (out ++ splice str heads strpos)
  | [], strpos, out, fits => by
    rw [toWriterLoop, splice]
    split
    · rw [strSlice_of_le fits (Nat.le_refl _), Lang.ok_bind, List.take_of_length_le (by simp), pure_eq_ok]
    · rw [List.drop_of_length_le (by omega), List.append_nil, pure_eq_ok]
  | head :: heads, strpos, out, ⟨le, fits⟩ => by
    have within := fits.le_length
    rw [toWriterLoop, splice]
    split
    · -- string data before the header
      have chunk : strpos + ((str.drop strpos).take (head.offset - strpos)).length = head.offset := by
        simp only [List.length_take, List.length_drop]
        omega
      rw [strSlice_of_le le within, Lang.ok_bind, pure_eq_ok, Lang.ok_bind]
      dsimp only
      rw [chunk, toWriterLoop_eq str heads head.offset _ fits]
      simp only [List.append_assoc]
    · -- the header right at `strpos`
      have same : head.offset = strpos := by omega
      rw [pure_eq_ok, Lang.ok_bind]
      dsimp only
      rw [← same, toWriterLoop_eq str heads head.offset _ fits, Nat.sub_self, List.take_zero]
      simp only [List.nil_append, List.append_assoc]

/-- `EncodeToBytes` returns the encoding. -/
theorem EncodeToBytes_eq (v : Value) : EncodeToBytes v = .ok v.encode := by
  have whole := toBytesLoop_eq v.data (v.heads 0) 0 [] (List.replicate v.encode.length 0) (fits_data_heads v)
    (by rw [List.length_replicate, splice_data_heads])
  rw [EncodeToBytes, encbuf.toBytes, size_writeValue, writeValue_empty]
  simpa [splice_data_heads] using whole

/-- `Encode` writes the encoding after what the writer held. -/
theorem Encode_eq (out : List UInt8) (v : Value) : Encode out v = .ok (out ++ v.encode) := by
  rw [Encode, encbuf.toWriter, writeValue_empty, toWriterLoop_eq _ _ _ _ (fits_data_heads v), splice_data_heads]

/-! ### `encReader` -/

/-- What a reader has still to hand out: the rest of its last piece, then the
string data from `strpos` with the headers from `lhpos` spliced in. -/
def encReader.rest (r : encReader) : List UInt8 :=
  match r.buf with
  | none => []
  | some buf => r.piece.getD [] ++ splice buf.str (buf.lheads.drop r.lhpos) r.strpos

/-- A reader as the code leaves it: the headers still to come fit the string
data from `strpos`, and a piece left over is not empty. -/
def encReader.Valid (r : encReader) : Prop :=
  match r.buf with
  | none => True
  | some buf => Fits buf.str (buf.lheads.drop r.lhpos) r.strpos ∧ r.piece ≠ some []

theorem drop_of_getElem? {l : List listhead} {n : Nat} {a : listhead} (found : l[n]? = some a) :
    l.drop n = a :: l.drop (n + 1) := by
  obtain ⟨within, eq⟩ := List.getElem?_eq_some_iff.mp found
  rw [List.drop_eq_getElem_cons within, eq]

theorem encode_ne_nil (head : listhead) : head.encode ≠ [] := by
  have size := length_encode head
  intro empty
  rw [empty, List.length_nil] at size
  split at size <;> omega

/-- `next` hands out what is left as a first piece, never empty, and keeps a
valid reader; at the end it hands out nothing. -/
theorem encReader.next_spec {r : encReader} (valid : r.Valid) :
    (r.rest = [] ∧ r.next = .ok (none, r)) ∨
      ∃ p r', r.next = .ok (some p, r') ∧ p ≠ [] ∧ r'.buf ≠ none ∧
        r.rest = p ++ { r' with piece := none }.rest ∧ { r' with piece := none }.Valid := by
  obtain ⟨buf, lhpos, strpos, piece⟩ := r
  rcases buf with _ | buf
  · exact .inl ⟨rfl, rfl⟩
  obtain ⟨fits, notEmpty⟩ := valid
  dsimp only at fits notEmpty
  rcases piece with _ | piece
  · cases found : buf.lheads[lhpos]? with
    | some head =>
      rw [drop_of_getElem? found] at fits
      obtain ⟨le, later⟩ := fits
      have within := later.le_length
      by_cases before : head.offset - strpos > 0
      · -- the string data up to the header
        refine .inr ⟨(buf.str.drop strpos).take (head.offset - strpos), ⟨some buf, lhpos, head.offset, none⟩,
          ?_, ?_, by simp, ?_, ?_⟩
        · simp only [encReader.next, found, before, if_true, strSlice_of_le le within, Lang.ok_bind,
            Nat.add_sub_cancel' le]
        · simp only [ne_eq, List.take_eq_nil_iff, List.drop_eq_nil_iff]
          omega
        · simp [encReader.rest, drop_of_getElem? found, splice]
        · simp only [encReader.Valid, drop_of_getElem? found]
          exact ⟨⟨Nat.le_refl _, later⟩, by simp⟩
      · -- the header, right at `strpos`
        have same : head.offset = strpos := by omega
        refine .inr ⟨head.encode, ⟨some buf, lhpos + 1, strpos, none⟩, ?_, encode_ne_nil head, by simp, ?_, ?_⟩
        · simp only [encReader.next, found, before, if_false]
        · simp [encReader.rest, drop_of_getElem? found, splice, same]
        · simp only [encReader.Valid]
          exact ⟨same ▸ later, by simp⟩
    | none =>
      have dropped : buf.lheads.drop lhpos = [] := List.drop_eq_nil_of_le (List.getElem?_eq_none_iff.mp found)
      rw [dropped] at fits
      by_cases inside : strpos < buf.str.length
      · -- the string data after the last header
        have whole : (buf.str.drop strpos).take (buf.str.length - strpos) = buf.str.drop strpos :=
          List.take_of_length_le (by simp)
        refine .inr ⟨buf.str.drop strpos, ⟨some buf, lhpos, buf.str.length, none⟩, ?_, ?_, by simp, ?_, ?_⟩
        · simp only [encReader.next, found, inside, if_true, strSlice_of_le fits (Nat.le_refl _), Lang.ok_bind,
            whole]
        · simp only [ne_eq, List.drop_eq_nil_iff]
          omega
        · simp [encReader.rest, dropped, splice]
        · simp only [encReader.Valid, dropped]
          exact ⟨Nat.le_refl _, by simp⟩
      · -- the end
        refine .inl ⟨?_, ?_⟩
        · simp only [encReader.rest, dropped, splice, Option.getD_none, List.nil_append, List.drop_eq_nil_iff]
          omega
        · simp only [encReader.next, found, inside, if_false]
  · refine .inr ⟨piece, ⟨some buf, lhpos, strpos, some piece⟩, rfl, fun empty => notEmpty (congrArg some empty),
      by simp, by simp [encReader.rest], ⟨fits, by simp⟩⟩

theorem encReader.rest_with_piece {r : encReader} (live : r.buf ≠ none) (x : List UInt8) :
    { r with piece := some x }.rest = x ++ { r with piece := none }.rest := by
  obtain ⟨buf, lhpos, strpos, piece⟩ := r
  rcases buf with _ | buf
  · exact absurd rfl live
  · simp [encReader.rest]

theorem encReader.valid_with_piece {r : encReader} {x : List UInt8} (valid : { r with piece := none }.Valid)
    (nonempty : x ≠ []) : { r with piece := some x }.Valid := by
  obtain ⟨buf, lhpos, strpos, piece⟩ := r
  rcases buf with _ | buf
  · trivial
  · exact ⟨valid.1, by simpa using nonempty⟩

theorem encReader.readLoop_of_none {r r' : encReader} (next : r.next = .ok (none, r')) (k : Nat)
    (got : List UInt8) : r.readLoop k got = .ok ((got, true), { r' with buf := none, piece := none }) := by
  rw [encReader.readLoop]
  split
  · next e failed =>
    rw [next] at failed
    cases failed
  · next r₀ stop =>
    rw [next] at stop
    cases stop
    rfl
  · next q r₀ more =>
    rw [next] at more
    cases more

theorem encReader.readLoop_of_some {r r' : encReader} {p : List UInt8} (next : r.next = .ok (some p, r'))
    (k : Nat) (got : List UInt8) : r.readLoop k got =
      if min (k - got.length) p.length < p.length then
        .ok ((got ++ p.take (min (k - got.length) p.length), false),
          { r' with piece := some (p.drop (min (k - got.length) p.length)) })
      else { r' with piece := none }.readLoop k (got ++ p) := by
  rw [encReader.readLoop]
  split
  · next e failed =>
    rw [next] at failed
    cases failed
  · next r₀ stop =>
    rw [next] at stop
    cases stop
  · next q r₀ more =>
    rw [next] at more
    cases more
    rfl

/-- A read into a buffer of `k` bytes, `got` of them filled, takes what fits
of what is left, and reports the end when all of it fits. The bound `n` on the
pieces to go carries the induction. -/
theorem encReader.readLoop_spec (k : Nat) : ∀ (n : Nat) (got : List UInt8) (r : encReader),
    r.pieces < n → r.Valid → got.length ≤ k →
    ∃ r', r.readLoop k got =
        .ok ((got ++ r.rest.take (k - got.length), decide (r.rest.length ≤ k - got.length)), r') ∧
      r'.Valid ∧ r'.rest = r.rest.drop (k - got.length)
  | 0, _, _, fewer, _, _ => absurd fewer (Nat.not_lt_zero _)
  | n + 1, got, r, fewer, valid, room => by
    rcases encReader.next_spec valid with ⟨ended, next⟩ | ⟨p, r', next, nonempty, live, rest, valid'⟩
    · -- the end: what is read is what the buffer held
      refine ⟨{ r with buf := none, piece := none }, ?_, trivial, by rw [ended, List.drop_nil]; rfl⟩
      rw [encReader.readLoop_of_none next, ended]
      simp only [List.take_nil, List.append_nil, List.length_nil, Nat.zero_le, decide_true]
    · have shorter := encReader.pieces_next next
      rw [encReader.readLoop_of_some next]
      by_cases whole : p.length ≤ k - got.length
      · -- the piece fits whole, and the loop reads on
        obtain ⟨r'', loop, valid'', rest''⟩ := encReader.readLoop_spec k n (got ++ p) { r' with piece := none }
          (by omega) valid' (by simp only [List.length_append]; omega)
        refine ⟨r'', ?_, valid'', ?_⟩
        · rw [if_neg (by omega), loop, rest]
          generalize { r' with piece := none }.rest = later
          rw [List.take_append, List.take_of_length_le whole, List.length_append, List.length_append,
            show k - (got.length + p.length) = k - got.length - p.length by omega, List.append_assoc,
            decide_eq_decide.mpr (show later.length ≤ k - got.length - p.length ↔
              p.length + later.length ≤ k - got.length by omega)]
        · rw [rest'', rest, List.drop_append, List.drop_of_length_le whole, List.nil_append, List.length_append]
          congr 1
          omega
      · -- the piece does not fit: what is left of it waits for the next read
        have part : min (k - got.length) p.length = k - got.length := by omega
        refine ⟨{ r' with piece := some (p.drop (k - got.length)) }, ?_,
          encReader.valid_with_piece valid' (by simp only [ne_eq, List.drop_eq_nil_iff]; omega), ?_⟩
        · rw [if_pos (by omega), rest, part, List.take_append_of_le_length (by omega), List.length_append,
            decide_eq_false (by omega)]
        · rw [encReader.rest_with_piece live, rest, List.drop_append_of_le_length (by omega)]

/-- `Read` into a buffer of `k` bytes takes the first `k` bytes left, and
reports the end when no more are left. -/
theorem encReader.Read_spec {r : encReader} (valid : r.Valid) (k : Nat) :
    ∃ r', r.Read k = .ok ((r.rest.take k, decide (r.rest.length ≤ k)), r') ∧ r'.Valid ∧ r'.rest = r.rest.drop k := by
  simpa [encReader.Read] using encReader.readLoop_spec k (r.pieces + 1) [] r (Nat.lt_succ_self _) valid (Nat.zero_le k)

/-- Reads with buffers of any sizes take what is left in order, and reach the
end once the buffers have held all of it. -/
theorem readAll_spec : ∀ (sizes : List Nat) (r : encReader), r.Valid →
    readAll sizes r = .ok (r.rest.take sizes.sum, decide (sizes ≠ [] ∧ r.rest.length ≤ sizes.sum))
  | [], r, _ => by simp [readAll]
  | k :: ks, r, valid => by
    obtain ⟨r', read, valid', rest'⟩ := encReader.Read_spec valid k
    rw [readAll, read, Lang.ok_bind]
    dsimp only
    by_cases done : r.rest.length ≤ k
    · -- the first read reaches the end
      rw [decide_eq_true done, if_pos rfl, pure_eq_ok, List.take_of_length_le done,
        List.take_of_length_le (by rw [List.sum_cons]; omega)]
      simp only [ne_eq, reduceCtorEq, not_false_eq_true, List.sum_cons, true_and, Except.ok.injEq,
        Prod.mk.injEq]
      exact (decide_eq_true (by omega)).symm
    · rw [decide_eq_false done, if_neg Bool.false_ne_true, readAll_spec ks r' valid', Lang.ok_bind, rest',
        List.sum_cons, List.take_add, pure_eq_ok]
      -- a last buffer too small leaves the end unreached
      cases ks with
      | nil => simp only [List.sum_nil, ne_eq, not_true_eq_false, false_and, decide_false, reduceCtorEq,
          not_false_eq_true, true_and, Nat.add_zero, decide_eq_false done]
      | cons k' ks =>
        simp only [ne_eq, reduceCtorEq, not_false_eq_true, true_and, List.length_drop, Except.ok.injEq,
          Prod.mk.injEq, decide_eq_decide]
        omega

/-- The reader `EncodeToReader` returns has the encoding to hand out. -/
theorem rest_EncodeToReader (v : Value) : (EncodeToReader v).2.rest = v.encode := by
  simp [EncodeToReader, encReader.rest, writeValue_empty, splice_data_heads]

theorem valid_EncodeToReader (v : Value) : (EncodeToReader v).2.Valid := by
  simp only [EncodeToReader, encReader.Valid, writeValue_empty, List.drop_zero]
  exact ⟨fits_data_heads v, by simp⟩

/-- The three back ends of the deferred-header encoder agree with the
recursive definition of RLP: `EncodeToBytes` returns the encoding, `Encode`
writes it, and the reader of `EncodeToReader`, whose size is its length,
hands it out across reads of any sizes, reaching the end exactly when the
buffers have held all of it. -/
theorem encbuf_backends_agree_with_encoding (v : Value) (out : List UInt8) (sizes : List Nat) :
    EncodeToBytes v = .ok v.encode ∧ Encode out v = .ok (out ++ v.encode) ∧
      (EncodeToReader v).1 = v.encode.length ∧
      readAll sizes (EncodeToReader v).2 =
        .ok (v.encode.take sizes.sum, decide (sizes ≠ [] ∧ v.encode.length ≤ sizes.sum)) := by
  refine ⟨EncodeToBytes_eq v, Encode_eq out v, size_writeValue v, ?_⟩
  rw [readAll_spec sizes _ (valid_EncodeToReader v), rest_EncodeToReader]

end Ebakus.Rlp
