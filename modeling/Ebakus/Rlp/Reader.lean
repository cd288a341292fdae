/-
# Typed decoding with the `Kind` cache (`rlp/decode.go`)

Go's `Stream` remembers the header `Kind` last read (`s.kind`, `s.size`,
`s.byteval`) until a read consumes it: `willRead` and the explicit `s.kind = -1`
of `Bytes`, `uint`, `List` and `ListEnd` rearm it, and while it is armed `Kind`
answers from the cache without looking at the input or at the end of the list.
`Reader` is a `Stream` with that cache. On a reader that is not armed `Kind`
and `List` are the `Stream` operations of the same name (`kind_unarmed`,
`list_unarmed`), so the proofs below start from what `Stream` proves.

The cache shows in one place of the typed decoders: `decodeByteArray` reads a
`[1]byte` written as one byte through `s.Uint()`, which fails on the byte zero
before it rearms, and drops the error. The reader is left armed with that zero
byte, and the decoder of whatever follows in the list reads it once more in
place of its own value (`decodeByteArray_leaves_zero_armed`).

Errors of `readKind` are not cached here: Go keeps them in `s.kinderr`, but
every decoder below returns at the first error but `EOL`, which is never cached.
-/

import Ebakus.Rlp.RoundTrip

namespace Ebakus.Rlp

open Ebakus.Lang

/-- `Kind.String`, the name of a kind in messages. -/
def kindString : Kind → String
  | .Byte => "Byte"
  | .String => "String"
  | .List => "List"

/-- A `Stream` with its `Kind` cache: `armed` is the header `Kind` last read,
while no read has consumed it. -/
structure Reader where
  stream : Stream
  armed : Option (Kind × Nat × UInt8)
  deriving DecidableEq, Repr

/-- A typed decoder over a reader. -/
abbrev RDecoder (α : Type) := Reader → Except DecodeFault (α × Reader)

namespace Reader

/-- The reader over a stream with nothing cached. -/
def unarmed (s : Stream) : Reader :=
  ⟨s, none⟩

/-- `s.kind = -1`. -/
def rearm (r : Reader) : Reader :=
  ⟨r.stream, none⟩

/-- `Kind`: the cached header, or the next one read and cached. -/
def kind (r : Reader) : Except RlpError (Kind × Nat × UInt8 × Reader) :=
  match r.armed with
  | some (k, size, byteval) => .ok (k, size, byteval, r)
  | none => do
      let (k, size, byteval, s) ← r.stream.kind
      return (k, size, byteval, ⟨s, some (k, size, byteval)⟩)

/-- `Bytes`. -/
def bytes (r : Reader) : Except RlpError (List UInt8 × Reader) := do
  let (k, size, byteval, r) ← r.kind
  match k with
  | .Byte => return ([byteval], r.rearm)
  | .String =>
      let (b, s) ← r.stream.readFull size
      if size = 1 && b.head?.all (· < 128) then throw .ErrCanonSize
      return (b, unarmed s)
  | .List => throw .ErrExpectedString

/-- `uint`: on the byte zero it fails before it rearms. -/
def uint (r : Reader) (maxbits : Nat) : Except RlpError (Nat × Reader) := do
  let (k, size, byteval, r) ← r.kind
  match k with
  | .Byte => if byteval = 0 then throw .ErrCanonInt else return (byteval.toNat, r.rearm)
  | .String =>
      if maxbits / 8 < size then throw .errUintOverflow
      match r.stream.readUint size with
      | .error .ErrCanonSize => throw .ErrCanonInt
      | .error err => throw err
      | .ok (v, s) => if 0 < size && v < 128 then throw .ErrCanonSize else return (v, unarmed s)
  | .List => throw .ErrExpectedString

/-- `Bool`. -/
def bool (r : Reader) : Except RlpError (Bool × Reader) := do
  let (num, r) ← r.uint 8
  if num = 0 then return (false, r)
  else if num = 1 then return (true, r)
  else throw (.custom ("rlp: invalid boolean value: " ++ Nat.repr num))

/-- `List`. -/
def list (r : Reader) : Except RlpError (Nat × Reader) := do
  let (k, size, _, r) ← r.kind
  if k ≠ .List then throw .ErrExpectedList
  return (size, unarmed ⟨r.stream.rest, ⟨0, size⟩ :: r.stream.stack⟩)

/-- `ListEnd`. -/
def listEnd (r : Reader) : Except RlpError Reader :=
  (r.stream.listEnd).map unarmed

/-! ### The typed decoders -/

section Decoders

variable {α : Type}

/-- Lift a reader operation into a decoder, with the stream errors the typed
decoders report as their own. -/
def liftReader {β : Type} (x : Except RlpError β) : Except DecodeFault β :=
  liftStream (x.mapError wrapStreamError)

/-- `decodeUint` into an unsigned integer of `bits` bits. -/
def decodeUint (bits : Nat) : RDecoder Nat := fun r =>
  liftReader (r.uint bits)

/-- `decodeBool`. -/
def decodeBool : RDecoder Bool := fun r =>
  liftReader r.bool

/-- `decodeString`: a Go string is the bytes it holds. -/
def decodeString : RDecoder (List UInt8) := fun r =>
  liftReader r.bytes

/-- `decodeByteSlice`. -/
def decodeByteSlice : RDecoder (List UInt8) := fun r =>
  liftReader r.bytes

/-- `decodeBigInt` of a non-negative integer: no leading zero byte. -/
def decodeBigInt : RDecoder Nat := fun r =>
  match liftReader r.bytes with
  | .error fault => .error fault
  | .ok (b, r) =>
      if b.head? = some 0 then .error (.error (wrapStreamError .ErrCanonInt))
      else .ok (Stream.bigEndian b, r)

/-- `decodeByteArray` into an array of `vlen` bytes. A byte is stored through
`bv, _ := s.Uint()`, which leaves `Kind` armed when the byte is zero. -/
def decodeByteArray (vlen : Nat) : RDecoder (List UInt8) := fun r =>
  match r.kind with
  | .error err => .error (.error err)
  | .ok (.Byte, _, byteval, r) =>
      if vlen = 0 then .error (.error (.decodeError "input string too long"))
      else if 1 < vlen then .error (.error (.decodeError "input string too short"))
      else .ok ([byteval], if byteval = 0 then r else r.rearm)
  | .ok (.String, size, _, r) =>
      if vlen < size then .error (.error (.decodeError "input string too long"))
      else if size < vlen then .error (.error (.decodeError "input string too short"))
      else match r.stream.readFull vlen with
        | .error err => .error (.error err)
        | .ok (b, s) =>
            if size = 1 && b.head?.all (· < 128) then .error (.error (wrapStreamError .ErrCanonSize))
            else .ok (b, unarmed s)
  | .ok (.List, _, _, _) => .error (.error (wrapStreamError .ErrExpectedString))

/-- The elements of `decodeListArray`: exactly `vlen` of them. -/
def decodeArrayElems (elemdec : RDecoder α) : Nat → RDecoder (List α)
  | 0, r => .ok ([], r)
  | vlen + 1, r =>
      match elemdec r with
      | .error (.error .EOL) => .error (.error (.decodeError "input list has too few elements"))
      | .error fault => .error fault
      | .ok (x, r) => (decodeArrayElems elemdec vlen r).map fun (xs, r) => (x :: xs, r)

/-- `decodeListArray` into an array of `vlen` elements. -/
def decodeListArray (vlen : Nat) (elemdec : RDecoder α) : RDecoder (List α) := fun r => do
  let (_, r) ← liftReader r.list
  let (xs, r) ← decodeArrayElems elemdec vlen r
  let r ← liftReader r.listEnd
  return (xs, r)

/-- `decodeSliceElems`: decode elements until the list ends. Go's loop has no
bound; `fuel` bounds the elements tried, and `none` says that the loop has
not ended after that many. -/
def decodeSliceElems (elemdec : RDecoder α) : Nat → Reader → Option (Except DecodeFault (List α × Reader))
  | 0, _ => none
  | fuel + 1, r =>
      match elemdec r with
      | .error (.error .EOL) => some (.ok ([], r))
      | .error fault => some (.error fault)
      | .ok (x, r) => (decodeSliceElems elemdec fuel r).map (Except.map fun (xs, r) => (x :: xs, r))

/-- `makeSimplePtrDecoder`: the element is decoded into a new value. -/
def decodeSimplePtr (elemdec : RDecoder α) : RDecoder (Option α) := fun r =>
  (elemdec r).map fun (x, r) => (some x, r)

/-- `makeNilPtrDecoder`: an empty value of the expected kind is the nil
pointer; any other value is decoded into a new one, from the armed reader. -/
def decodeNilPtr (nilKind : Kind) (elemdec : RDecoder α) : RDecoder (Option α) := fun r =>
  match r.kind with
  | .error err => .error (.error (wrapStreamError err))
  | .ok (k, size, _, r') =>
      if k ≠ .Byte ∧ size = 0 then
        if k ≠ nilKind then
          .error (.error (.decodeError ("wrong kind of empty value (got " ++ kindString k ++ ", want " ++
            kindString nilKind ++ ")")))
        else .ok (none, r'.rearm)
      else (elemdec r').map fun (x, r) => (some x, r)

/-- A field of a struct: running out of list is "too few elements". -/
def decodeFieldR (dec : RDecoder α) : RDecoder α := fun r =>
  match dec r with
  | .error (.error .EOL) => .error (.error (.decodeError "too few elements"))
  | other => other

/-- `makeStructDecoder`: enter the struct's list, decode its fields in order,
and check that the list is used up. -/
def decodeStructR (fields : RDecoder α) : RDecoder α := fun r => do
  let (_, r) ← liftReader r.list
  let (v, r) ← fields r
  let r ← liftReader r.listEnd
  return (v, r)

/-- `DecodeBytes`: decode one value from a fresh reader and reject any input
after it. -/
def DecodeBytesR (dec : RDecoder α) (b : List UInt8) : Except DecodeFault α :=
  match dec (unarmed (Stream.ofBytes b)) with
  | .error fault => .error fault
  | .ok (v, r) => if r.stream.rest.isEmpty then .ok v else .error (.error .ErrMoreThanOneValue)

end Decoders

/-! ### The cache does not show on a reader that is not armed -/

theorem kind_unarmed (s : Stream) :
    (unarmed s).kind = (s.kind).map fun (k, size, byteval, s) => (k, size, byteval, ⟨s, some (k, size, byteval)⟩) := by
  simp only [kind, unarmed]
  cases s.kind <;> rfl

theorem list_unarmed (s : Stream) : (unarmed s).list = (s.list).map fun (n, s) => (n, unarmed s) := by
  simp only [list, Stream.list, kind_unarmed]
  rcases s.kind with err | ⟨k, size, byteval, s'⟩
  · rfl
  · simp only [Except.map, bind, Except.bind]
    split <;> rfl

/-! ### A zero byte in a `[1]byte` is read twice -/

/-- After a `[1]byte` holding zero, written as the byte itself, the reader has
read the byte but is still armed with it. -/
theorem decodeByteArray_leaves_zero_armed {s : Stream} {rest : List UInt8} (fits : 1 ≤ s.room)
    (input : s.rest = 0 :: rest) :
    decodeByteArray 1 (unarmed s) = .ok ([0], ⟨s.skip 1, some (.Byte, 0, 0)⟩) := by
  have read := Stream.kind_of_readKind (Stream.readKind_of_byte fits input (by decide)) Nat.one_pos
    (by simpa using fits)
  simp only [decodeByteArray, kind_unarmed, read, Except.map]
  rfl

/-- An unsigned integer read from a reader armed with a zero byte is refused as
not canonical, whatever the input holds. -/
theorem decodeUint_of_armed_zero (s : Stream) (bits : Nat) :
    decodeUint bits ⟨s, some (.Byte, 0, 0)⟩ =
      .error (.error (.decodeError "non-canonical integer (leading zero bytes)")) := by
  simp only [decodeUint, uint, kind]
  rfl

theorem length_writeUint_le (i : UInt64) : (writeUint i).length ≤ 9 := by
  have few : (bigBytes i.toNat).length ≤ 8 := length_bigBytes_le (by simpa using i.toNat_lt)
  unfold writeUint putint
  split
  · simp
  · split
    · simp
    · split
      · simp
      · simp only [List.length_cons]
        omega

/-- The decoder of `struct { A [1]byte; B uint64 }`. -/
def decodeByteAndUint : RDecoder (List UInt8 × Nat) :=
  decodeStructR fun r => do
    let (a, r) ← decodeFieldR (decodeByteArray 1) r
    let (b, r) ← decodeFieldR (decodeUint 64) r
    return ((a, b), r)

/-- `struct { A [1]byte; B uint64 }` with `A` holding zero does not decode
from its own encoding, whatever `B` holds: `B` is read from the zero byte that
`A` left armed. -/
theorem DecodeBytes_byte_and_uint_of_zero (B : UInt64) :
    DecodeBytesR decodeByteAndUint (encodeList (encodeString [0] ++ writeUint B)) =
      .error (.error (.decodeError "non-canonical integer (leading zero bytes)")) := by
  rw [encodeString_single (by decide)]
  have short : ([0] ++ writeUint B).length < 2 ^ 64 := by
    have few := length_writeUint_le B
    rw [List.length_append, List.length_singleton]
    omega
  obtain ⟨inner, entered, left, -⟩ : ∃ inner : Stream,
      (Stream.ofBytes (encodeList ([0] ++ writeUint B))).list = .ok (([0] ++ writeUint B).length, inner) ∧
        inner.Left ([0] ++ writeUint B) [] ∧
        (inner.skip ([0] ++ writeUint B).length).listEnd =
          .ok ((Stream.ofBytes (encodeList ([0] ++ writeUint B))).skip (encodeList ([0] ++ writeUint B)).length) :=
    list_encodeList short (Nat.le_refl _) (List.append_nil _).symm
  have input : inner.rest = 0 :: (writeUint B ++ []) := by
    rw [left.1]
    rfl
  have first := decodeByteArray_leaves_zero_armed left.le_room input
  simp only [DecodeBytesR, decodeByteAndUint, decodeStructR, list_unarmed, entered, liftReader, liftStream,
    Except.map, Except.mapError, bind, Except.bind, decodeFieldR, first, decodeUint_of_armed_zero]

end Reader

end Ebakus.Rlp
