/-
# RLP decoding streams (`rlp/decode.go`)

A `Stream` reads RLP values one header at a time from a byte string whose
length it knows, and keeps a stack of the lists it is inside. Every read is
checked against the room left in the innermost list (`ErrElemTooLarge`) and
against the input left (`ErrValueTooLarge`); sizes and integers must be in
canonical form. A typed decoder is a function of the stream that reads one
value and returns the stream after it.

The stream here is the decoder's state made explicit: `rest` is what the
reader has not read, and each entry of `stack` is a list's size with the
number of its bytes read so far, the innermost list first.
-/

import Ebakus.Lang.Go

namespace Ebakus.Rlp

open Ebakus.Lang

/-- The kind of the next value: one byte below `0x80`, a string, or a list. -/
inductive Kind
  | Byte
  | String
  | List
  deriving DecidableEq, Repr

/-- The errors of the decoder. `decodeError` stands for `*decodeError`, with its
message; the type and the field path it carries are left out. -/
inductive RlpError
  | EOL
  | EOF
  | ErrExpectedString
  | ErrExpectedList
  | ErrCanonInt
  | ErrCanonSize
  | ErrElemTooLarge
  | ErrValueTooLarge
  | ErrMoreThanOneValue
  | errNotInList
  | errNotAtEOL
  | errUintOverflow
  | decodeError (msg : String)
  | custom (msg : String)
  deriving DecidableEq, Repr

/-- The text of each error value. -/
def RlpError.message : RlpError → String
  | .EOL => "rlp: end of list"
  | .EOF => "EOF"
  | .ErrExpectedString => "rlp: expected String or Byte"
  | .ErrExpectedList => "rlp: expected List"
  | .ErrCanonInt => "rlp: non-canonical integer format"
  | .ErrCanonSize => "rlp: non-canonical size information"
  | .ErrElemTooLarge => "rlp: element is larger than containing list"
  | .ErrValueTooLarge => "rlp: value size exceeds available input length"
  | .ErrMoreThanOneValue => "rlp: input contains more than one value"
  | .errNotInList => "rlp: call of ListEnd outside of any list"
  | .errNotAtEOL => "rlp: call of ListEnd not positioned at EOL"
  | .errUintOverflow => "rlp: uint overflow"
  | .decodeError msg => "rlp: " ++ msg
  | .custom msg => msg

/-- `wrapStreamError`: the stream errors a typed decoder reports as its own. -/
def wrapStreamError : RlpError → RlpError
  | .ErrCanonInt => .decodeError "non-canonical integer (leading zero bytes)"
  | .ErrCanonSize => .decodeError "non-canonical size information"
  | .ErrExpectedList => .decodeError "expected input list"
  | .ErrExpectedString => .decodeError "expected input string or byte"
  | .errUintOverflow => .decodeError "input string too long"
  | .errNotAtEOL => .decodeError "input list has too many elements"
  | err => err

/-- How a decoder stops: an error value, or a panic in a custom decoder. -/
inductive DecodeFault
  | error (err : RlpError)
  | panic (cause : Panic)
  deriving DecidableEq, Repr

/-- `listpos`: a list being read, its size and the bytes of it read so far. -/
structure listpos where
  pos : Nat
  size : Nat
  deriving DecidableEq, Repr

/-- A stream over a byte string, with the lists it is inside. -/
structure Stream where
  rest : List UInt8
  stack : List listpos
  deriving DecidableEq, Repr

/-- A typed decoder: the value read and the stream after it. -/
abbrev Decoder (α : Type) := Stream → Except DecodeFault (α × Stream)

namespace Stream

/-- `NewStream` over a whole byte string, as `DecodeBytes` builds it. -/
def ofBytes (b : List UInt8) : Stream :=
  ⟨b, []⟩

/-- `willRead`: account for `n` more bytes in the innermost list and in the input. -/
def willRead (s : Stream) (n : Nat) : Except RlpError Stream :=
  match s.stack with
  | [] => if s.rest.length < n then .error .ErrValueTooLarge else .ok s
  | tos :: outer =>
      if tos.size - tos.pos < n then .error .ErrElemTooLarge
      else if s.rest.length < n then .error .ErrValueTooLarge
      else .ok ⟨s.rest, ⟨tos.pos + n, tos.size⟩ :: outer⟩

/-- `readFull`: the next `n` bytes. -/
def readFull (s : Stream) (n : Nat) : Except RlpError (List UInt8 × Stream) := do
  let s ← s.willRead n
  return (s.rest.take n, ⟨s.rest.drop n, s.stack⟩)

/-- `readByte`. -/
def readByte (s : Stream) : Except RlpError (UInt8 × Stream) := do
  let s ← s.willRead 1
  match s.rest with
  | b :: rest => return (b, ⟨rest, s.stack⟩)
  | [] => throw .EOF

/-- The big-endian value of a byte string. -/
def bigEndian (b : List UInt8) : Nat :=
  b.foldl (fun acc byte => acc * 256 + byte.toNat) 0

@[simp]
theorem bigEndian_nil : bigEndian [] = 0 := rfl

theorem bigEndian_append_single (b : List UInt8) (x : UInt8) :
    bigEndian (b ++ [x]) = bigEndian b * 256 + x.toNat := by
  simp only [bigEndian, List.foldl_append, List.foldl_cons, List.foldl_nil]

/-- `readUint`: a big-endian integer of `size` bytes with no leading zero. -/
def readUint (s : Stream) (size : Nat) : Except RlpError (Nat × Stream) :=
  match size with
  | 0 => .ok (0, s)
  | 1 => do
      let (b, s) ← s.readByte
      return (b.toNat, s)
  | size => do
      let (b, s) ← s.readFull size
      if b.head? = some 0 then throw .ErrCanonSize
      return (bigEndian b, s)

/-- `readKind`: decode one header. The byte of a `Byte` is returned with it.
At the top level, running out of input is the end of the input. -/
def readKind (s : Stream) : Except RlpError (Kind × Nat × UInt8 × Stream) :=
  match s.readByte with
  | .error err =>
      .error (if s.stack.isEmpty && err = .ErrValueTooLarge then .EOF else err)
  | .ok (b, s) =>
      if b < 0x80 then .ok (.Byte, 0, b, s)
      else if b < 0xB8 then .ok (.String, (b - 0x80).toNat, 0, s)
      else if b < 0xC0 then do
        let (size, s) ← s.readUint (b - 0xB7).toNat
        if size < 56 then throw .ErrCanonSize
        return (.String, size, 0, s)
      else if b < 0xF8 then .ok (.List, (b - 0xC0).toNat, 0, s)
      else do
        let (size, s) ← s.readUint (b - 0xF7).toNat
        if size < 56 then throw .ErrCanonSize
        return (.List, size, 0, s)

/-- `Kind`: the next header, checked to fit in the input or in the innermost
list; `EOL` at the end of the innermost list. -/
def kind (s : Stream) : Except RlpError (Kind × Nat × UInt8 × Stream) :=
  match s.stack with
  | tos :: _ =>
      if tos.pos = tos.size then .error .EOL
      else do
        let (k, size, byteval, s') ← s.readKind
        match s'.stack with
        | tos' :: _ =>
            if tos'.size - tos'.pos < size then throw .ErrElemTooLarge
            else return (k, size, byteval, s')
        | [] => return (k, size, byteval, s')
  | [] => do
      let (k, size, byteval, s') ← s.readKind
      if s'.rest.length < size then throw .ErrValueTooLarge
      return (k, size, byteval, s')

/-- `Bytes`: the contents of a string; a one-byte string below `0x80` should
have been that byte alone. -/
def bytes (s : Stream) : Except RlpError (List UInt8 × Stream) := do
  let (k, size, byteval, s) ← s.kind
  match k with
  | .Byte => return ([byteval], s)
  | .String =>
      let (b, s) ← s.readFull size
      if size = 1 && b.head?.all (· < 128) then throw .ErrCanonSize
      return (b, s)
  | .List => throw .ErrExpectedString

/-- `uint`: an unsigned integer of at most `maxbits` bits, in canonical form. -/
def uint (s : Stream) (maxbits : Nat) : Except RlpError (Nat × Stream) := do
  let (k, size, byteval, s) ← s.kind
  match k with
  | .Byte => if byteval = 0 then throw .ErrCanonInt else return (byteval.toNat, s)
  | .String =>
      if maxbits / 8 < size then throw .errUintOverflow
      match s.readUint size with
      | .error .ErrCanonSize => throw .ErrCanonInt
      | .error err => throw err
      | .ok (v, s) => if 0 < size && v < 128 then throw .ErrCanonSize else return (v, s)
  | .List => throw .ErrExpectedString

/-- `List`: enter a list. -/
def list (s : Stream) : Except RlpError (Nat × Stream) := do
  let (k, size, _, s) ← s.kind
  if k ≠ .List then throw .ErrExpectedList
  return (size, ⟨s.rest, ⟨0, size⟩ :: s.stack⟩)

/-- `ListEnd`: leave a list that has been read to its end. -/
def listEnd (s : Stream) : Except RlpError Stream :=
  match s.stack with
  | [] => .error .errNotInList
  | tos :: outer =>
      if tos.pos ≠ tos.size then .error .errNotAtEOL
      else match outer with
        | [] => .ok ⟨s.rest, []⟩
        | up :: outer => .ok ⟨s.rest, ⟨up.pos + tos.size, up.size⟩ :: outer⟩

/-! ### Reading within the room left

The lemmas below describe a stream that is read where its bytes fit: the
state after a read is the state before it with the read bytes taken off the
input and counted in the innermost list. -/

/-- The bytes the next reads may take: what is left of the innermost list and
of the input. -/
def room (s : Stream) : Nat :=
  match s.stack with
  | [] => s.rest.length
  | tos :: _ => min (tos.size - tos.pos) s.rest.length

/-- The stream after `n` more of its bytes have been read. -/
def skip (s : Stream) (n : Nat) : Stream :=
  ⟨s.rest.drop n, match s.stack with
    | [] => []
    | tos :: outer => ⟨tos.pos + n, tos.size⟩ :: outer⟩

@[simp]
theorem skip_rest (s : Stream) (n : Nat) : (s.skip n).rest = s.rest.drop n := rfl

@[simp]
theorem skip_zero (s : Stream) : s.skip 0 = s := by
  rcases s with ⟨rest, _ | ⟨tos, outer⟩⟩ <;> rfl

theorem skip_skip (s : Stream) (m n : Nat) : (s.skip m).skip n = s.skip (m + n) := by
  rcases s with ⟨rest, _ | ⟨tos, outer⟩⟩
  · simp only [skip, List.drop_drop]
  · simp only [skip, List.drop_drop, Nat.add_assoc]

theorem room_skip {s : Stream} {n : Nat} (fits : n ≤ s.room) : (s.skip n).room = s.room - n := by
  rcases s with ⟨rest, _ | ⟨tos, outer⟩⟩
  · simp only [room, skip, List.length_drop] at fits ⊢
  · simp only [room, skip, List.length_drop] at fits ⊢
    omega

theorem willRead_of_le_room {s : Stream} {n : Nat} (fits : n ≤ s.room) :
    s.willRead n = .ok ⟨s.rest, (s.skip n).stack⟩ := by
  rcases s with ⟨rest, _ | ⟨tos, outer⟩⟩
  · simp only [room] at fits
    simp only [willRead, skip, if_neg (Nat.not_lt.mpr fits)]
  · simp only [room] at fits
    simp only [willRead, skip, if_neg (show ¬tos.size - tos.pos < n by omega),
      if_neg (show ¬rest.length < n by omega)]

theorem readFull_of_le_room {s : Stream} {n : Nat} (fits : n ≤ s.room) :
    s.readFull n = .ok (s.rest.take n, s.skip n) := by
  rw [readFull, willRead_of_le_room fits]
  rfl

theorem readByte_of_cons {s : Stream} {b : UInt8} {r : List UInt8} (fits : 1 ≤ s.room)
    (first : s.rest = b :: r) : s.readByte = .ok (b, s.skip 1) := by
  have skipped : (⟨r, (s.skip 1).stack⟩ : Stream) = s.skip 1 := by
    simp only [skip, first, List.drop_succ_cons, List.drop_zero]
  simp only [readByte, willRead_of_le_room fits, bind, Except.bind, first]
  rw [skipped]
  rfl

/-- A header of `h` bytes whose value fits after it passes the checks of `Kind`. -/
theorem kind_of_readKind {s : Stream} {k : Kind} {size h : Nat} {byteval : UInt8}
    (read : s.readKind = .ok (k, size, byteval, s.skip h)) (start : 0 < h)
    (fits : h + size ≤ s.room) : s.kind = .ok (k, size, byteval, s.skip h) := by
  rcases s with ⟨rest, _ | ⟨tos, outer⟩⟩
  · simp only [room] at fits
    simp only [kind, read, bind, Except.bind, skip_rest, List.length_drop,
      if_neg (show ¬rest.length - h < size by omega)]
    rfl
  · simp only [room] at fits
    simp only [kind, if_neg (show tos.pos ≠ tos.size by omega), read, bind, Except.bind]
    simp only [skip, if_neg (show ¬tos.size - (tos.pos + h) < size by omega)]
    rfl

/-- A byte below `0x80` is a value of its own. -/
theorem readKind_of_byte {s : Stream} {b : UInt8} {r : List UInt8} (fits : 1 ≤ s.room)
    (first : s.rest = b :: r) (small : b < 0x80) : s.readKind = .ok (.Byte, 0, b, s.skip 1) := by
  simp only [readKind, readByte_of_cons fits first, if_pos small]

/-! ### What is left of a list

Inside a list the decoders of its elements are run one after another on what
is left of it. `Left s enc r` says that `s` is inside a list of which `enc` is
all that is left, with `r` after it in the input. -/

/-- `s` is inside a list, `enc` is what is left of it, and `r` follows it. -/
def Left (s : Stream) (enc r : List UInt8) : Prop :=
  s.rest = enc ++ r ∧ ∃ tos outer, s.stack = tos :: outer ∧ tos.pos + enc.length = tos.size

theorem Left.le_room {s : Stream} {enc more r : List UInt8} (left : s.Left (enc ++ more) r) :
    enc.length ≤ s.room := by
  obtain ⟨rest, tos, outer, stack, within⟩ := left
  simp only [room, stack, rest, List.length_append] at within ⊢
  omega

theorem Left.rest_eq {s : Stream} {enc more r : List UInt8} (left : s.Left (enc ++ more) r) :
    s.rest = enc ++ (more ++ r) := by
  rw [left.1, List.append_assoc]

theorem Left.skip {s : Stream} {enc more r : List UInt8} (left : s.Left (enc ++ more) r) :
    (s.skip enc.length).Left more r := by
  obtain ⟨rest, tos, outer, stack, within⟩ := left
  refine ⟨?_, ⟨tos.pos + enc.length, tos.size⟩, outer, ?_, ?_⟩
  · simp only [skip_rest, rest, List.append_assoc, List.drop_left]
  · simp only [Stream.skip, stack]
  · simp only [List.length_append] at within
    simp only
    omega

/-- At the end of a list `Kind` says so, and nothing is read. -/
theorem Left.kind_eq_EOL {s : Stream} {r : List UInt8} (left : s.Left [] r) :
    s.kind = .error .EOL := by
  obtain ⟨-, tos, outer, stack, within⟩ := left
  simp only [List.length_nil, Nat.add_zero] at within
  simp only [kind, stack, if_pos within]

/-- `ListEnd` of a list read to its end goes back to the enclosing one, with
the list's bytes counted there. -/
theorem listEnd_of_read (t : Stream) (rest : List UInt8) (size : Nat) :
    Stream.listEnd ⟨rest, ⟨size, size⟩ :: t.stack⟩ = .ok ⟨rest, (t.skip size).stack⟩ := by
  rcases t with ⟨_, _ | ⟨up, outer⟩⟩
  · simp only [listEnd, skip, ne_eq, not_true_eq_false, if_false]
  · simp only [listEnd, skip, ne_eq, not_true_eq_false, if_false]

end Stream

/-- Lift a stream operation into a decoder. -/
def liftStream {α : Type} (x : Except RlpError α) : Except DecodeFault α :=
  x.mapError DecodeFault.error

/-- `decodeByteSlice`. -/
def decodeByteSlice : Decoder (List UInt8) := fun s =>
  liftStream ((s.bytes).mapError wrapStreamError)

/-- `decodeUint` into a `uint64`. -/
def decodeUint64 : Decoder UInt64 := fun s =>
  liftStream (((s.uint 64).map fun (v, s) => (v.toUInt64, s)).mapError wrapStreamError)

/-- `decodeBigInt` of a non-negative integer: no leading zero byte. -/
def decodeBigInt : Decoder Nat := fun s =>
  match (s.bytes).mapError wrapStreamError with
  | .error err => .error (.error err)
  | .ok (b, s) =>
      if b.head? = some 0 then .error (.error (wrapStreamError .ErrCanonInt))
      else .ok (Stream.bigEndian b, s)

/-- `decodeByteArray` into an array of `vlen` bytes. The stream here keeps no
`Kind` cache; `Reader.decodeByteArray` does, and leaves a `[1]byte` holding
zero in it (`Reader.decodeByteArray_leaves_zero_armed`). -/
def decodeByteArray (vlen : Nat) : Decoder (List UInt8) := fun s =>
  match s.kind with
  | .error err => .error (.error err)
  | .ok (.Byte, _, byteval, s) =>
      if vlen = 0 then .error (.error (.decodeError "input string too long"))
      else if 1 < vlen then .error (.error (.decodeError "input string too short"))
      else .ok ([byteval], s)
  | .ok (.String, size, _, s) =>
      if vlen < size then .error (.error (.decodeError "input string too long"))
      else if size < vlen then .error (.error (.decodeError "input string too short"))
      else match s.readFull vlen with
        | .error err => .error (.error err)
        | .ok (b, s) =>
            if size = 1 && b.head?.all (· < 128) then .error (.error (wrapStreamError .ErrCanonSize))
            else .ok (b, s)
  | .ok (.List, _, _, _) => .error (.error (wrapStreamError .ErrExpectedString))

/-- `decodeSliceElems` for a `tail` field: decode elements until the end of the
enclosing list. Each element is read from the bytes left in the list, so at
most that many elements are read. -/
def decodeSliceElems {α : Type} (elemdec : Decoder α) : Nat → Decoder (List α)
  | 0, s => .ok ([], s)
  | fuel + 1, s =>
      match elemdec s with
      | .error (.error .EOL) => .ok ([], s)
      | .error fault => .error fault
      | .ok (x, s) => (decodeSliceElems elemdec fuel s).map fun (xs, s) => (x :: xs, s)

/-- A field of a struct: running out of list is "too few elements". -/
def decodeField {α : Type} (dec : Decoder α) : Decoder α := fun s =>
  match dec s with
  | .error (.error .EOL) => .error (.error (.decodeError "too few elements"))
  | other => other

/-- `makeStructDecoder`: enter the struct's list, decode its fields in order,
and check that the list is used up. -/
def decodeStruct {α : Type} (fields : Decoder α) : Decoder α := fun s => do
  let (_, s) ← liftStream (s.list.mapError wrapStreamError)
  let (v, s) ← fields s
  let s ← liftStream (s.listEnd.mapError wrapStreamError)
  return (v, s)

/-- `DecodeBytes`: decode one value and reject any input after it. -/
def DecodeBytes {α : Type} (dec : Decoder α) (b : List UInt8) : Except DecodeFault α :=
  match dec (Stream.ofBytes b) with
  | .error fault => .error fault
  | .ok (v, s) => if s.rest.isEmpty then .ok v else .error (.error .ErrMoreThanOneValue)

end Ebakus.Rlp
