/-
# Decoding what the encoder wrote

The decoder reads back every value the encoder writes, and leaves the stream
just after it. `Reads dec enc v` says this of one decoder, one encoding and
one value, for every stream that has room for the encoding where it is read:
at the top level or anywhere inside lists. Sequences of fields, the tail of a
struct and the struct's list itself are built from such facts, so that a
whole header is read back by putting together one fact per field.
-/

import Ebakus.Rlp.Encode

namespace Ebakus.Rlp

open Ebakus.Rlp.Stream

/-! ### Headers -/

theorem toNat_add_toUInt8 {tag : UInt8} {n : Nat} (fits : tag.toNat + n < 256) :
    (tag + n.toUInt8).toNat = tag.toNat + n := by
  rw [UInt8.toNat_add]
  simp only [Nat.toUInt8_eq, UInt8.toNat_ofNat', Nat.reducePow]
  omega

theorem toNat_add_toUInt8_sub {tag : UInt8} {n : Nat} (fits : tag.toNat + n < 256) :
    (tag + n.toUInt8 - tag).toNat = n := by
  have le : tag ≤ tag + n.toUInt8 := by
    rw [UInt8.le_iff_toNat_le, toNat_add_toUInt8 fits]
    omega
  rw [UInt8.toNat_sub_of_le _ _ le, toNat_add_toUInt8 fits]
  omega

/-- A size written by `putint` reads back, in one byte or in several. -/
theorem readUint_bigBytes {s : Stream} {n : Nat} {r : List UInt8} (pos : 0 < n)
    (fits : (bigBytes n).length ≤ s.room) (input : s.rest = bigBytes n ++ r) :
    s.readUint (bigBytes n).length = .ok (n, s.skip (bigBytes n).length) := by
  have value := bigEndian_bigBytes n
  have lead := head_bigBytes_ne_zero n
  obtain ⟨x, more, bytes⟩ := List.exists_cons_of_ne_nil (bigBytes_ne_nil pos)
  rw [bytes] at fits input value lead ⊢
  cases more with
  | nil =>
    -- one byte is read as it is: it cannot be zero, since `n` is not
    simp only [List.length_singleton] at fits ⊢
    simp only [Stream.bigEndian, List.foldl_cons, List.foldl_nil, Nat.zero_mul,
      Nat.zero_add] at value
    simp only [Stream.readUint, readByte_of_cons fits input, bind, Except.bind, pure,
      Except.pure, value]
  | cons y more =>
    simp only [List.length_cons] at fits ⊢
    have taken : ((x :: y :: more) ++ r).take (more.length + 1 + 1) = x :: y :: more :=
      List.take_left' rfl
    simp only [Stream.readUint, readFull_of_le_room fits, input]
    simp only [bind, Except.bind, taken, if_neg lead, pure, Except.pure, value]

/-- The header `puthead` writes for a string reads back as that string's size. -/
theorem readKind_stringHead {s : Stream} {size : Nat} {r : List UInt8} (small : size < 2 ^ 64)
    (fits : (puthead 0x80 0xB7 size).length ≤ s.room)
    (input : s.rest = puthead 0x80 0xB7 size ++ r) :
    s.readKind = .ok (.String, size, 0, s.skip (puthead 0x80 0xB7 size).length) := by
  by_cases short : size < 56
  · -- the size is in the tag byte
    rw [puthead, if_pos short] at fits input ⊢
    have tag : (0x80 + size.toUInt8 : UInt8).toNat = 128 + size :=
      toNat_add_toUInt8 (by simp only [UInt8.reduceToNat]; omega)
    have notByte : ¬(0x80 + size.toUInt8 : UInt8) < 0x80 := by
      rw [UInt8.lt_iff_toNat_lt, tag]
      simp
    have isShort : (0x80 + size.toUInt8 : UInt8) < 0xB8 := by
      rw [UInt8.lt_iff_toNat_lt, tag]
      simp only [UInt8.reduceToNat]
      omega
    simp only [List.length_singleton] at fits ⊢
    simp only [Stream.readKind, readByte_of_cons fits input, if_neg notByte, if_pos isShort,
      toNat_add_toUInt8_sub (show (0x80 : UInt8).toNat + size < 256 by simp only [UInt8.reduceToNat]; omega)]
  · -- the size follows the tag byte, in as few bytes as it takes
    have pos : 0 < size := by omega
    have sizeBytes : (bigBytes size).length ≤ 8 := length_bigBytes_le (by simpa using small)
    have nonempty := List.length_pos_of_ne_nil (bigBytes_ne_nil pos)
    rw [puthead, if_neg short, putint, if_neg (by omega)] at fits input ⊢
    have tag : (0xB7 + (bigBytes size).length.toUInt8 : UInt8).toNat = 183 + (bigBytes size).length :=
      toNat_add_toUInt8 (by simp only [UInt8.reduceToNat]; omega)
    have notByte : ¬(0xB7 + (bigBytes size).length.toUInt8 : UInt8) < 0x80 := by
      rw [UInt8.lt_iff_toNat_lt, tag]
      simp only [UInt8.reduceToNat]
      omega
    have notShort : ¬(0xB7 + (bigBytes size).length.toUInt8 : UInt8) < 0xB8 := by
      rw [UInt8.lt_iff_toNat_lt, tag]
      simp only [UInt8.reduceToNat]
      omega
    have isLong : (0xB7 + (bigBytes size).length.toUInt8 : UInt8) < 0xC0 := by
      rw [UInt8.lt_iff_toNat_lt, tag]
      simp only [UInt8.reduceToNat]
      omega
    simp only [List.length_cons] at fits ⊢
    have after : (s.skip 1).rest = bigBytes size ++ r := by
      simp only [skip_rest, input, List.cons_append, List.drop_succ_cons, List.drop_zero]
    have room₁ : (bigBytes size).length ≤ (s.skip 1).room := by
      rw [room_skip (by omega)]
      omega
    simp only [Stream.readKind, readByte_of_cons (by omega) input, if_neg notByte, if_neg notShort,
      if_pos isLong, toNat_add_toUInt8_sub (show (0xB7 : UInt8).toNat + (bigBytes size).length < 256 by
        simp only [UInt8.reduceToNat]; omega),
      readUint_bigBytes pos room₁ after, bind, Except.bind, if_neg short, skip_skip, Nat.add_comm 1]
    rfl

/-- The header `puthead` writes for a list reads back as the size of its payload. -/
theorem readKind_listHead {s : Stream} {size : Nat} {r : List UInt8} (small : size < 2 ^ 64)
    (fits : (puthead 0xC0 0xF7 size).length ≤ s.room)
    (input : s.rest = puthead 0xC0 0xF7 size ++ r) :
    s.readKind = .ok (.List, size, 0, s.skip (puthead 0xC0 0xF7 size).length) := by
  by_cases short : size < 56
  · -- the size is in the tag byte
    rw [puthead, if_pos short] at fits input ⊢
    have tag : (0xC0 + size.toUInt8 : UInt8).toNat = 192 + size :=
      toNat_add_toUInt8 (by simp only [UInt8.reduceToNat]; omega)
    have above : ∀ bound : UInt8, bound.toNat ≤ 192 → ¬(0xC0 + size.toUInt8 : UInt8) < bound := by
      intro bound low
      rw [UInt8.lt_iff_toNat_lt, tag]
      omega
    have isShort : (0xC0 + size.toUInt8 : UInt8) < 0xF8 := by
      rw [UInt8.lt_iff_toNat_lt, tag]
      simp only [UInt8.reduceToNat]
      omega
    simp only [List.length_singleton] at fits ⊢
    simp only [Stream.readKind, readByte_of_cons fits input, if_neg (above 0x80 (by decide)),
      if_neg (above 0xB8 (by decide)), if_neg (above 0xC0 (by decide)), if_pos isShort,
      toNat_add_toUInt8_sub (show (0xC0 : UInt8).toNat + size < 256 by simp only [UInt8.reduceToNat]; omega)]
  · -- the size follows the tag byte, in as few bytes as it takes
    have pos : 0 < size := by omega
    have sizeBytes : (bigBytes size).length ≤ 8 := length_bigBytes_le (by simpa using small)
    have nonempty := List.length_pos_of_ne_nil (bigBytes_ne_nil pos)
    rw [puthead, if_neg short, putint, if_neg (by omega)] at fits input ⊢
    have tag : (0xF7 + (bigBytes size).length.toUInt8 : UInt8).toNat = 247 + (bigBytes size).length :=
      toNat_add_toUInt8 (by simp only [UInt8.reduceToNat]; omega)
    have above : ∀ bound : UInt8, bound.toNat ≤ 248 →
        ¬(0xF7 + (bigBytes size).length.toUInt8 : UInt8) < bound := by
      intro bound low
      rw [UInt8.lt_iff_toNat_lt, tag]
      omega
    simp only [List.length_cons] at fits ⊢
    have after : (s.skip 1).rest = bigBytes size ++ r := by
      simp only [skip_rest, input, List.cons_append, List.drop_succ_cons, List.drop_zero]
    have room₁ : (bigBytes size).length ≤ (s.skip 1).room := by
      rw [room_skip (by omega)]
      omega
    simp only [Stream.readKind, readByte_of_cons (by omega) input, if_neg (above 0x80 (by decide)),
      if_neg (above 0xB8 (by decide)), if_neg (above 0xC0 (by decide)),
      if_neg (above 0xF8 (by decide)), toNat_add_toUInt8_sub (show (0xF7 : UInt8).toNat +
        (bigBytes size).length < 256 by simp only [UInt8.reduceToNat]; omega),
      readUint_bigBytes pos room₁ after, bind, Except.bind, if_neg short, skip_skip, Nat.add_comm 1]
    rfl

theorem length_puthead_pos (smalltag largetag : UInt8) (size : Nat) :
    0 < (puthead smalltag largetag size).length := by
  unfold puthead
  split <;> simp only [List.length_cons] <;> omega

/-! ### Strings -/

/-- How `Kind` reads an encoded string: a single byte below `0x80`, or a
string header after which the bytes follow within the room. -/
theorem kind_encodeString {s : Stream} {b r : List UInt8} (small : b.length < 2 ^ 64)
    (fits : (encodeString b).length ≤ s.room) (input : s.rest = encodeString b ++ r) :
    (∃ x, b = [x] ∧ x < 0x80 ∧ (encodeString b).length = 1 ∧
      s.kind = .ok (.Byte, 0, x, s.skip 1)) ∨
    ((∀ x, b = [x] → 0x80 ≤ x) ∧
      (encodeString b).length = (puthead 0x80 0xB7 b.length).length + b.length ∧
      s.kind = .ok (.String, b.length, 0, s.skip (puthead 0x80 0xB7 b.length).length) ∧
      (s.skip (puthead 0x80 0xB7 b.length).length).rest = b ++ r ∧
      b.length ≤ (s.skip (puthead 0x80 0xB7 b.length).length).room) := by
  by_cases single : ∃ x, b = [x] ∧ x < 0x80
  · obtain ⟨x, rfl, below⟩ := single
    rw [encodeString_single below] at fits input ⊢
    refine .inl ⟨x, rfl, below, rfl, ?_⟩
    exact kind_of_readKind (readKind_of_byte fits input below) Nat.one_pos fits
  · have notSingle : ∀ x, b = [x] → 0x80 ≤ x :=
      fun x bx => UInt8.not_lt.mp fun below => single ⟨x, bx, below⟩
    rw [encodeString_of_header notSingle] at fits input ⊢
    rw [List.length_append] at fits
    have head := readKind_stringHead small (by omega)
      (show s.rest = puthead 0x80 0xB7 b.length ++ (b ++ r) by rw [input, List.append_assoc])
    refine .inr ⟨notSingle, List.length_append, ?_, ?_, ?_⟩
    · exact kind_of_readKind head (length_puthead_pos _ _ _) fits
    · simp only [skip_rest, input, List.append_assoc, List.drop_left]
    · have shrink := room_skip (show (puthead 0x80 0xB7 b.length).length ≤ s.room by omega)
      rw [shrink]
      omega

/-- A string longer or shorter than one byte, or one byte from `0x80` up,
passes the check that a single small byte should have been written alone. -/
theorem canonical_of_notSingle {b : List UInt8} (notSingle : ∀ x, b = [x] → 0x80 ≤ x) :
    (decide (b.length = 1) && b.head?.all (· < 128)) = false := by
  match b, notSingle with
  | [], _ => rfl
  | [x], notSingle =>
    have large := notSingle x rfl
    simp only [List.length_singleton, decide_true, List.head?_cons, Option.all_some,
      Bool.true_and, decide_eq_false_iff_not, UInt8.not_lt]
    exact large
  | _ :: _ :: _, _ => simp

/-- `Bytes` reads an encoded string back. -/
theorem bytes_encodeString {s : Stream} {b r : List UInt8} (small : b.length < 2 ^ 64)
    (fits : (encodeString b).length ≤ s.room) (input : s.rest = encodeString b ++ r) :
    s.bytes = .ok (b, s.skip (encodeString b).length) := by
  rcases kind_encodeString small fits input with ⟨x, rfl, -, length, kind⟩ |
    ⟨notSingle, length, kind, after, room⟩
  · simp only [Stream.bytes, kind, bind, Except.bind, pure, Except.pure, length]
  · have taken : (b ++ r).take b.length = b := List.take_left' rfl
    simp only [Stream.bytes, kind, bind, Except.bind, readFull_of_le_room room, after, taken,
      canonical_of_notSingle notSingle, pure, Except.pure, skip_skip, length]
    rfl

/-! ### Decoders that read their values back -/

/-- `dec` reads the encoding `enc` back as `v`: from every stream that starts
with `enc` and has room for it, it returns `v` and the stream just after it. -/
def Reads {α : Type} (dec : Decoder α) (enc : List UInt8) (v : α) : Prop :=
  ∀ (s : Stream) (r : List UInt8), enc.length ≤ s.room → s.rest = enc ++ r →
    dec s = .ok (v, s.skip enc.length)

section Reads

variable {α : Type} {dec : Decoder α} {enc : List UInt8} {v : α}

/-- Inside a list, a value that reads back is read where it stands. -/
theorem Reads.step (reads : Reads dec enc v) {s : Stream} {more r : List UInt8}
    (left : s.Left (enc ++ more) r) : dec s = .ok (v, s.skip enc.length) :=
  reads s (more ++ r) left.le_room left.rest_eq

/-- An input that is one encoding and nothing else decodes to its value. -/
theorem Reads.decodeBytes (reads : Reads dec enc v) : DecodeBytes dec enc = .ok v := by
  have read := reads (Stream.ofBytes enc) [] (by simp only [room, ofBytes, Nat.le_refl])
    (List.append_nil enc).symm
  unfold DecodeBytes
  rw [read]
  simp only [skip_rest, ofBytes, List.drop_length, List.isEmpty_nil, if_true]

theorem decodeField_of_ok {s : Stream} {x : α × Stream} (ok : dec s = .ok x) :
    decodeField dec s = .ok x := by
  simp only [decodeField, ok]

/-- Every failure of a field but the end of the list is the struct's failure. -/
theorem decodeField_of_error {s : Stream} {fault : DecodeFault} (failed : dec s = .error fault)
    (notEnd : fault ≠ .error .EOL) : decodeField dec s = .error fault := by
  unfold decodeField
  rw [failed]
  split
  · rename_i isEnd
    cases isEnd
    exact absurd rfl notEnd
  · rfl

/-- A field of a struct reads back as its decoder does. -/
theorem decodeField_reads (reads : Reads dec enc v) : Reads (decodeField dec) enc v :=
  fun s r fits input => decodeField_of_ok (reads s r fits input)

end Reads

theorem decodeByteSlice_reads {b : List UInt8} (small : b.length < 2 ^ 64) :
    Reads decodeByteSlice (encodeString b) b := by
  intro s r fits input
  simp only [decodeByteSlice, bytes_encodeString small fits input]
  rfl

/-- At the end of a list a byte string is not read: the list has ended. -/
theorem decodeByteSlice_of_Left_nil {s : Stream} {r : List UInt8} (left : s.Left [] r) :
    decodeByteSlice s = .error (.error .EOL) := by
  simp only [decodeByteSlice, Stream.bytes, left.kind_eq_EOL, bind, Except.bind, liftStream,
    Except.mapError, wrapStreamError]

/-- A byte array reads back from the string of its bytes. -/
theorem decodeByteArray_reads {b : List UInt8} {vlen : Nat} (len : b.length = vlen)
    (small : vlen < 2 ^ 64) : Reads (decodeByteArray vlen) (encodeString b) b := by
  subst len
  intro s r fits input
  rcases kind_encodeString small fits input with ⟨x, rfl, -, length, kind⟩ |
    ⟨notSingle, length, kind, after, room⟩
  · simp only [decodeByteArray, kind, List.length_singleton, Nat.one_ne_zero, if_false,
      Nat.lt_irrefl, length]
  · have taken : (b ++ r).take b.length = b := List.take_left' rfl
    simp only [decodeByteArray, kind, Nat.lt_irrefl, readFull_of_le_room room, after, taken, canonical_of_notSingle notSingle, Bool.false_eq_true, ↓reduceIte, skip_skip, length]

/-- A non-negative big integer reads back from the string of its bytes. -/
theorem decodeBigInt_reads (n : Nat) (small : (bigBytes n).length < 2 ^ 64) :
    Reads decodeBigInt (writeBigInt n) n := by
  rw [writeBigInt_eq]
  intro s r fits input
  simp only [decodeBigInt, bytes_encodeString small fits input, Except.mapError,
    if_neg (head_bigBytes_ne_zero n), bigEndian_bigBytes]

/-- `uint` reads back a number written as the string of its bytes, when it
has at most `maxbits / 8` of them. -/
theorem uint_encodeString_bigBytes {s : Stream} {v maxbits : Nat} {r : List UInt8}
    (fewBytes : (bigBytes v).length ≤ maxbits / 8) (narrow : maxbits ≤ 64)
    (fits : (encodeString (bigBytes v)).length ≤ s.room)
    (input : s.rest = encodeString (bigBytes v) ++ r) :
    s.uint maxbits = .ok (v, s.skip (encodeString (bigBytes v)).length) := by
  have value := bigEndian_bigBytes v
  rcases kind_encodeString (by omega) fits input with ⟨x, single, -, length, kind⟩ |
    ⟨notSingle, length, kind, after, room⟩
  · -- a number below `0x80` is its one byte, which is not zero
    simp only [single, Stream.bigEndian, List.foldl_cons, List.foldl_nil, Nat.zero_mul,
      Nat.zero_add] at value
    have pos : 0 < v := Nat.pos_of_ne_zero fun zero => by
      rw [zero, bigBytes_zero] at single
      exact List.cons_ne_nil x [] single.symm
    have nonzero : x ≠ 0 := by
      rintro rfl
      rw [← value, UInt8.toNat_zero] at pos
      exact Nat.lt_irrefl 0 pos
    simp only [Stream.uint, kind, bind, Except.bind, if_neg nonzero, pure, Except.pure, value,
      length]
  · rcases Nat.eq_zero_or_pos v with rfl | pos
    · -- zero is the empty string
      simp only [Stream.uint, kind, bind, Except.bind, bigBytes_zero, List.length_nil,
        Nat.not_lt_zero, Stream.readUint, Nat.lt_irrefl, decide_false, Bool.false_and,
        Bool.false_eq_true, ↓reduceIte, pure, Except.pure]
      rfl
    · -- from `0x80` up the string has no leading zero and the value is not small
      have large : ¬v < 128 := by
        intro below
        have one := bigBytes_of_pos pos
        rw [Nat.div_eq_of_lt (by omega), bigBytes_zero, List.nil_append] at one
        have big := notSingle _ one
        rw [UInt8.le_iff_toNat_le] at big
        simp only [Nat.toUInt8_eq, UInt8.toNat_ofNat', Nat.reducePow, UInt8.reduceToNat] at big
        omega
      simp only [Stream.uint, kind, bind, Except.bind, if_neg (Nat.not_lt.mpr fewBytes),
        readUint_bigBytes pos room after, large, decide_false, Bool.and_false, Bool.false_eq_true,
        ↓reduceIte, pure, Except.pure, skip_skip, length]

/-- A `uint64` reads back. -/
theorem decodeUint64_reads (i : UInt64) : Reads decodeUint64 (writeUint i) i := by
  rw [writeUint_eq]
  intro s r fits input
  have fewBytes : (bigBytes i.toNat).length ≤ 64 / 8 := length_bigBytes_le (by simpa using i.toNat_lt)
  simp only [decodeUint64, uint_encodeString_bigBytes fewBytes (Nat.le_refl 64) fits input,
    liftStream, Except.map, Except.mapError, Nat.toUInt64_eq, UInt64.ofNat_toNat]

/-! ### Lists and structs -/

/-- `List` enters an encoded list: its payload is then all that is left of the
innermost list, and `ListEnd` after the payload comes back to the stream just
after the whole list. -/
theorem list_encodeList {s : Stream} {payload r : List UInt8} (small : payload.length < 2 ^ 64)
    (fits : (encodeList payload).length ≤ s.room) (input : s.rest = encodeList payload ++ r) :
    ∃ inner : Stream, s.list = .ok (payload.length, inner) ∧ inner.Left payload r ∧
      (inner.skip payload.length).listEnd = .ok (s.skip (encodeList payload).length) := by
  rw [encodeList, List.length_append] at fits ⊢
  have head := readKind_listHead small (by omega)
    (show s.rest = puthead 0xC0 0xF7 payload.length ++ (payload ++ r) by
      rw [input, encodeList, List.append_assoc])
  have kind := kind_of_readKind head (length_puthead_pos _ _ _) fits
  have after : (s.skip (puthead 0xC0 0xF7 payload.length).length).rest = payload ++ r := by
    simp only [skip_rest, input, encodeList, List.append_assoc, List.drop_left]
  refine ⟨⟨payload ++ r, ⟨0, payload.length⟩ ::
    (s.skip (puthead 0xC0 0xF7 payload.length).length).stack⟩, ?_, ?_, ?_⟩
  · simp only [Stream.list, kind, bind, Except.bind, ne_eq, not_true_eq_false, if_false, after,
      pure, Except.pure]
  · exact ⟨rfl, _, _, rfl, Nat.zero_add _⟩
  · have innerSkip : (⟨payload ++ r, ⟨0, payload.length⟩ ::
        (s.skip (puthead 0xC0 0xF7 payload.length).length).stack⟩ : Stream).skip payload.length =
        ⟨r, ⟨payload.length, payload.length⟩ ::
          (s.skip (puthead 0xC0 0xF7 payload.length).length).stack⟩ := by
      simp only [Stream.skip, List.drop_left, Nat.zero_add]
    have rest : ((s.skip (puthead 0xC0 0xF7 payload.length).length).skip payload.length).rest = r := by
      rw [skip_rest, after, List.drop_left]
    rw [innerSkip, listEnd_of_read, ← skip_skip, ← rest]

section Struct

variable {α : Type} {fields : Decoder α} {payload : List UInt8}

/-- A struct reads back from its list when its fields read back from what is
in it, up to the end of the list. -/
theorem decodeStruct_reads {v : α} (small : payload.length < 2 ^ 64)
    (inner : ∀ s r, s.Left payload r → fields s = .ok (v, s.skip payload.length)) :
    Reads (decodeStruct fields) (encodeList payload) v := by
  intro s r fits input
  obtain ⟨t, entered, left, leave⟩ := list_encodeList small fits input
  simp only [decodeStruct, entered, inner t r left, leave, liftStream, Except.mapError, bind,
    Except.bind, pure, Except.pure]

/-- A struct whose fields fail inside its list fails the same way. -/
theorem decodeStruct_of_fields {fault : DecodeFault} (small : payload.length < 2 ^ 64)
    (inner : ∀ s r, s.Left payload r → fields s = .error fault) {s : Stream} {r : List UInt8}
    (fits : (encodeList payload).length ≤ s.room) (input : s.rest = encodeList payload ++ r) :
    decodeStruct fields s = .error fault := by
  obtain ⟨t, entered, left, -⟩ := list_encodeList small fits input
  simp only [decodeStruct, entered, inner t r left, liftStream, Except.mapError, bind,
    Except.bind]

end Struct

/-! ### Tails -/

/-- Elements with non-empty encodings are no more than the bytes of them. -/
theorem length_le_flatten {α : Type} {enc : α → List UInt8} (xs : List α)
    (nonempty : ∀ x ∈ xs, enc x ≠ []) : xs.length ≤ (xs.map enc).flatten.length := by
  induction xs with
  | nil => exact Nat.le_refl 0
  | cons x xs ih =>
    have first := List.length_pos_of_ne_nil (nonempty x List.mem_cons_self)
    have rest := ih fun y mem => nonempty y (List.mem_cons_of_mem x mem)
    simp only [List.length_cons, List.map_cons, List.flatten_cons, List.length_append]
    omega

section SliceElems

variable {α : Type} {dec : Decoder α} {enc : α → List UInt8}

/-- Elements that read back are decoded one after another; what follows them
is decoded with the fuel left. -/
theorem decodeSliceElems_append (xs : List α) (reads : ∀ x ∈ xs, Reads dec (enc x) x)
    (fuel : Nat) {s : Stream} {more r : List UInt8}
    (left : s.Left ((xs.map enc).flatten ++ more) r) :
    decodeSliceElems dec (xs.length + fuel) s =
      (decodeSliceElems dec fuel (s.skip (xs.map enc).flatten.length)).map
        fun (ys, t) => (xs ++ ys, t) := by
  induction xs generalizing s with
  | nil =>
    simp only [List.length_nil, Nat.zero_add, List.map_nil, List.flatten_nil, skip_zero]
    cases decodeSliceElems dec fuel s <;> rfl
  | cons x xs ih =>
    rw [List.map_cons, List.flatten_cons, List.append_assoc] at left
    have first : dec s = .ok (x, s.skip (enc x).length) :=
      (reads x List.mem_cons_self).step left
    have rest := ih (fun y mem => reads y (List.mem_cons_of_mem x mem)) left.skip
    rw [List.length_cons, Nat.add_right_comm, decodeSliceElems, first]
    simp only [rest, List.map_cons, List.flatten_cons, List.length_append, skip_skip]
    cases decodeSliceElems dec fuel (s.skip ((enc x).length + (xs.map enc).flatten.length)) <;> rfl

/-- A tail of elements that read back, to the end of its list, is read back
when there is fuel for every element and for the end of the list. -/
theorem decodeSliceElems_reads (xs : List α) (reads : ∀ x ∈ xs, Reads dec (enc x) x)
    (stops : ∀ s r, s.Left [] r → dec s = .error (.error .EOL)) {fuel : Nat}
    (enough : xs.length < fuel) {s : Stream} {r : List UInt8}
    (left : s.Left (xs.map enc).flatten r) :
    decodeSliceElems dec fuel s = .ok (xs, s.skip (xs.map enc).flatten.length) := by
  obtain ⟨more, rfl⟩ : ∃ more, fuel = xs.length + (more + 1) := ⟨fuel - xs.length - 1, by omega⟩
  rw [← List.append_nil (xs.map enc).flatten] at left
  have atEnd := stops _ _ left.skip
  rw [decodeSliceElems_append xs reads (more + 1) left, decodeSliceElems, atEnd]
  simp only [Except.map, List.append_nil]

/-- An element that fails after elements that read back makes the whole tail
fail, unless its failure is the end of the list. -/
theorem decodeSliceElems_of_fault (xs : List α) (reads : ∀ x ∈ xs, Reads dec (enc x) x)
    {bad more r : List UInt8} {fault : DecodeFault}
    (fails : ∀ t : Stream, t.Left (bad ++ more) r → dec t = .error fault)
    (notEnd : fault ≠ .error .EOL) {fuel : Nat} (enough : xs.length < fuel) {s : Stream}
    (left : s.Left ((xs.map enc).flatten ++ (bad ++ more)) r) :
    decodeSliceElems dec fuel s = .error fault := by
  obtain ⟨spare, rfl⟩ : ∃ spare, fuel = xs.length + (spare + 1) :=
    ⟨fuel - xs.length - 1, by omega⟩
  rw [decodeSliceElems_append xs reads (spare + 1) left, decodeSliceElems, fails _ left.skip]
  split
  · -- the end of the list, which the failure is not
    rename_i isEnd
    cases isEnd
    exact absurd rfl notEnd
  · rename_i same
    cases same
    rfl
  · rename_i impossible
    cases impossible

end SliceElems

end Ebakus.Rlp
