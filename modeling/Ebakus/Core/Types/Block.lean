/-
# Block headers and their RLP form (`core/types/block.go`)

A header ends with `DelegateDiff`, the changes to the list of delegates
that the block makes, as a `tail` field: its items follow the other fields
inside the header's list. An item has its own codec: it is written as a
two-byte string (its position and the old position of a delegate that moved)
or a twenty-one-byte string (its position and a new delegate's address), and
read back by the length of the string.

`DelegateItem.DecodeRLP` takes the first byte of the string as the position
whatever the length turned out to be, before it returns the error for a bad
length; an empty string therefore panics.
-/

import Ebakus.Rlp.RoundTrip
import Ebakus.Common.Types

namespace Ebakus.Core.Types

open Ebakus.Lang Ebakus.Common Ebakus.Rlp

/-- `types.BloomByteLength`. -/
def BloomByteLength : Nat := 256

/-- `types.Bloom`: a 2048-bit filter. -/
structure Bloom where
  bytes : List UInt8
  length_eq : bytes.length = BloomByteLength
  deriving DecidableEq

/-- The filter a byte array is decoded into. The decoder fills all 256 bytes,
which are then kept as they are; the cropping and padding only make the
conversion total. -/
def Bloom.ofArray (b : List UInt8) : Bloom :=
  ⟨LeftPadBytes (b.drop (b.length - BloomByteLength)) BloomByteLength, by
    apply length_LeftPadBytes_of_le
    simp only [List.length_drop]
    omega⟩

/-- A filter converts back to itself. -/
@[simp]
theorem Bloom.ofArray_bytes (b : Bloom) : Bloom.ofArray b.bytes = b := by
  rcases b with ⟨bytes, length_eq⟩
  simp only [Bloom.ofArray, length_eq, Nat.sub_self, List.drop_zero, LeftPadBytes, le_refl, if_true]

/-- `DelegateItem`: the delegate at position `Pos` of the new list, named by
its address when it is new and by its old position when it moved. -/
structure DelegateItem where
  Pos : UInt8
  DelegateAddress : Address
  DelegateNumber : UInt8
  deriving DecidableEq

/-- `DelegateItem.EncodeRLP`: a `[2]byte` or a `[21]byte` string. -/
def DelegateItem.EncodeRLP (d : DelegateItem) : List UInt8 :=
  if d.DelegateAddress = Address.zero then encodeString [d.Pos, d.DelegateNumber]
  else encodeString (d.Pos :: d.DelegateAddress.bytes)

/-- `DelegateItem.DecodeRLP`, into the zero item the slice decoder provides. -/
def DelegateItem.DecodeRLP : Decoder DelegateItem := fun s =>
  -- `err := s.Decode(&list)` with `list` a `[]byte`
  match decodeByteSlice s with
  | .error fault => .error fault
  | .ok (list, s) =>
      let (d, err) : DelegateItem × Option RlpError :=
        if list.length = AddressLength + 1 then
          (⟨0, BytesToAddress (list.drop 1), 0⟩, none)
        else if list.length = 2 then (⟨0, Address.zero, list.getD 1 0⟩, none)
        else (⟨0, Address.zero, 0⟩, some (.custom "invalid input size for DelegateItem"))
      -- `d.Pos = list[0]`, reached on every length
      match list with
      | [] => .error (.panic .indexOutOfRange)
      | pos :: _ =>
          match err with
          | some err => .error (.error err)
          | none => .ok ({ d with Pos := pos }, s)

/-- The changes that turn the list `a` into `b`, by position in `b`: a
delegate found in `a` at another position is named by that position, one not
found in `a` by its `id`. The three `Diff` functions of the source are this
loop over lists of different element types. -/
def diffBy {ω : Type} (id : ω → Address) (a b : List ω) : List DelegateItem :=
  b.zipIdx.filterMap fun (d, i) =>
    -- the inner loop stops at the first delegate of `a` with the same id
    match (a.map id).idxOf? (id d) with
    | some j => if i ≠ j then some ⟨i.toUInt8, Address.zero, j.toUInt8⟩ else none
    | none => some ⟨i.toUInt8, id d, 0⟩

/-- `DelegateArray.Diff`. -/
def DelegateArray.Diff (a b : List Address) : List DelegateItem :=
  diffBy id a b

/-- The items `DelegateArray.Diff` makes: a new delegate has only its
address, a moved one only its old position. -/
def DelegateItem.Valid (d : DelegateItem) : Prop :=
  d.DelegateAddress = Address.zero ∨ d.DelegateNumber = 0

instance : DecidablePred DelegateItem.Valid := fun d =>
  inferInstanceAs (Decidable (d.DelegateAddress = Address.zero ∨ d.DelegateNumber = 0))

/-- A list of delegates that begins the old list records no change: each
delegate stands where it stood, the old ids being distinct. -/
theorem diffBy_eq_nil_of_prefix {ω : Type} (id : ω → Address) {a b : List ω}
    (nodup : (a.map id).Nodup) (pre : b <+: a) : diffBy id a b = [] := by
  simp only [diffBy, List.filterMap_eq_nil_iff]
  rintro ⟨d, i⟩ mem
  obtain ⟨i_lt, rfl⟩ : ∃ h : i < b.length, b[i] = d := by
    simpa [List.mem_zipIdx_iff_getElem?, List.getElem?_eq_some_iff] using mem
  have within : i < (a.map id).length := by
    simpa using lt_of_lt_of_le i_lt pre.length_le
  have same : id b[i] = (a.map id)[i] := by simp [pre.getElem i_lt]
  -- the old ids are distinct, so the first with the id of `b[i]` is at `i`
  have found : List.idxOf? (id b[i]) (a.map id) = some i := by
    rw [List.idxOf?_eq_some_iff]
    refine ⟨within, same.symm, fun j j_lt earlier => ?_⟩
    have j_within : j < (a.map id).length := by omega
    have := (List.Nodup.getElem_inj_iff nodup).mp (earlier.trans same)
    omega
  simp [found]

namespace DelegateItem

/-- An item of either shape reads back. -/
theorem DecodeRLP_reads (d : DelegateItem) (valid : d.Valid) : Reads DecodeRLP d.EncodeRLP d := by
  intro s r fits input
  unfold EncodeRLP at fits input ⊢
  split
  · -- a moved delegate: two bytes, its position and its old position
    rename_i zero
    rw [if_pos zero] at fits input
    have read := decodeByteSlice_reads (b := [d.Pos, d.DelegateNumber])
      (show 2 < 2 ^ 64 by decide) s r fits input
    rcases d with ⟨Pos, DelegateAddress, DelegateNumber⟩
    simp only at zero
    subst zero
    simp only [DecodeRLP, read, List.length_cons, List.length_nil, AddressLength]
    rfl
  · -- a new delegate: its position and its twenty address bytes
    rename_i nonzero
    rw [if_neg nonzero] at fits input
    have small : (d.Pos :: d.DelegateAddress.bytes).length < 2 ^ 64 := by
      rw [List.length_cons, d.DelegateAddress.length_eq, AddressLength]
      decide
    have read := decodeByteSlice_reads small s r fits input
    have number : d.DelegateNumber = 0 := valid.resolve_left nonzero
    rcases d with ⟨Pos, DelegateAddress, DelegateNumber⟩
    simp only at number
    subst number
    simp only [DecodeRLP, read, List.length_cons, DelegateAddress.length_eq, if_true,
      List.drop_succ_cons, List.drop_zero, Address.BytesToAddress_bytes]

/-- An empty string where an item should be panics: the position is read
from it before its length is looked at. -/
theorem DecodeRLP_of_empty {s : Stream} {r : List UInt8} (fits : 1 ≤ s.room)
    (input : s.rest = 0x80 :: r) : DecodeRLP s = .error (.panic .indexOutOfRange) := by
  have read := decodeByteSlice_reads (b := []) (by decide) s r fits input
  simp only [DecodeRLP, read]

/-- At the end of the list there is no item. -/
theorem DecodeRLP_of_Left_nil {s : Stream} {r : List UInt8} (left : s.Left [] r) :
    DecodeRLP s = .error (.error .EOL) := by
  simp only [DecodeRLP, decodeByteSlice_of_Left_nil left]

theorem EncodeRLP_ne_nil (d : DelegateItem) : d.EncodeRLP ≠ [] := by
  intro empty
  unfold EncodeRLP at empty
  split at empty
  · have long := length_le_encodeString [d.Pos, d.DelegateNumber]
    rw [empty, List.length_nil, List.length_cons, List.length_singleton] at long
    omega
  · have long := length_le_encodeString (d.Pos :: d.DelegateAddress.bytes)
    rw [empty, List.length_nil, List.length_cons] at long
    omega

end DelegateItem

/-- `types.Header`. `Number` is a `*big.Int` that is set and not negative. -/
structure Header where
  ParentHash : Hash
  Signature : List UInt8
  Root : Hash
  TxHash : Hash
  ReceiptHash : Hash
  Bloom : Bloom
  Number : Nat
  GasLimit : UInt64
  GasUsed : UInt64
  Time : UInt64
  DelegateDiff : List DelegateItem
  deriving DecidableEq

/-- `types.Header{}`: every field zero. -/
def Header.empty : Header :=
  ⟨BytesToHash [], [], BytesToHash [], BytesToHash [], BytesToHash [], Bloom.ofArray [], 0, 0, 0, 0,
    []⟩

/-- The decoders of the fields of `Header`, in order, inside its list; the
tail takes the rest of the list. -/
def Header.decodeFields : Decoder Header := fun s => do
  let (ParentHash, s) ← decodeField (decodeByteArray HashLength) s
  let (Signature, s) ← decodeField decodeByteSlice s
  let (Root, s) ← decodeField (decodeByteArray HashLength) s
  let (TxHash, s) ← decodeField (decodeByteArray HashLength) s
  let (ReceiptHash, s) ← decodeField (decodeByteArray HashLength) s
  let (bloom, s) ← decodeField (decodeByteArray BloomByteLength) s
  let (Number, s) ← decodeField decodeBigInt s
  let (GasLimit, s) ← decodeField decodeUint64 s
  let (GasUsed, s) ← decodeField decodeUint64 s
  let (Time, s) ← decodeField decodeUint64 s
  -- every item takes at least one byte of the list
  let (DelegateDiff, s) ← decodeField (decodeSliceElems DelegateItem.DecodeRLP (s.rest.length + 1)) s
  return (⟨BytesToHash ParentHash, Signature, BytesToHash Root, BytesToHash TxHash,
    BytesToHash ReceiptHash, Bloom.ofArray bloom, Number, GasLimit, GasUsed, Time, DelegateDiff⟩, s)

/-- The decoder of `Header`, the struct decoder of its fields. -/
def Header.decode : Decoder Header :=
  decodeStruct Header.decodeFields

/-- The fields of a header before its tail, each as its writer writes it. -/
def Header.encodeFields (h : Header) : List UInt8 :=
  encodeString h.ParentHash.bytes ++ encodeString h.Signature ++ encodeString h.Root.bytes ++
    encodeString h.TxHash.bytes ++ encodeString h.ReceiptHash.bytes ++ encodeString h.Bloom.bytes ++
    writeBigInt h.Number ++ writeUint h.GasLimit ++ writeUint h.GasUsed ++ writeUint h.Time

/-- The struct encoder of `Header`: its fields in a list, the tail's items
spliced in after them. -/
def Header.encode (h : Header) : List UInt8 :=
  encodeList (h.encodeFields ++ (h.DelegateDiff.map DelegateItem.EncodeRLP).flatten)

/-- `Header.Hash`: the Keccak-256 hash of the header's encoding. -/
def Header.Hash (Keccak256 : List UInt8 → Hash) (h : Header) : Hash :=
  Keccak256 h.encode

/-- Where a header stands in the chain: its parent, its number and its time. -/
def Header.position (header : Header) : Common.Hash × Nat × UInt64 :=
  (header.ParentHash, header.Number, header.Time)

namespace Header

/-- Inside a header's list the fields before the tail read back, and the
tail is decoded from what follows them. -/
theorem decodeFields_eq (h : Header) (smallSignature : h.Signature.length < 2 ^ 64)
    (smallNumber : (bigBytes h.Number).length < 2 ^ 64) {s : Stream} {tail r : List UInt8}
    (left : s.Left (h.encodeFields ++ tail) r) :
    decodeFields s =
      (decodeField (decodeSliceElems DelegateItem.DecodeRLP
          ((s.skip h.encodeFields.length).rest.length + 1)) (s.skip h.encodeFields.length)).map
        fun (dd, t) => ({ h with DelegateDiff := dd }, t) := by
  simp only [encodeFields, List.append_assoc] at left
  have hash : HashLength < 2 ^ 64 := by decide
  -- one field after another, each read where the one before it ended
  have r₁ := (decodeField_reads (decodeByteArray_reads h.ParentHash.length_eq hash)).step left
  have l₁ := left.skip
  have r₂ := (decodeField_reads (decodeByteSlice_reads smallSignature)).step l₁
  have l₂ := l₁.skip
  have r₃ := (decodeField_reads (decodeByteArray_reads h.Root.length_eq hash)).step l₂
  have l₃ := l₂.skip
  have r₄ := (decodeField_reads (decodeByteArray_reads h.TxHash.length_eq hash)).step l₃
  have l₄ := l₃.skip
  have r₅ := (decodeField_reads (decodeByteArray_reads h.ReceiptHash.length_eq hash)).step l₄
  have l₅ := l₄.skip
  have r₆ := (decodeField_reads (decodeByteArray_reads h.Bloom.length_eq (by decide))).step l₅
  have l₆ := l₅.skip
  have r₇ := (decodeField_reads (decodeBigInt_reads h.Number smallNumber)).step l₆
  have l₇ := l₆.skip
  have r₈ := (decodeField_reads (decodeUint64_reads h.GasLimit)).step l₇
  have l₈ := l₇.skip
  have r₉ := (decodeField_reads (decodeUint64_reads h.GasUsed)).step l₈
  have l₉ := l₈.skip
  have r₁₀ := (decodeField_reads (decodeUint64_reads h.Time)).step l₉
  simp only [decodeFields, r₁, r₂, r₃, r₄, r₅, r₆, r₇, r₈, r₉, r₁₀, bind, Except.bind]
  simp only [Stream.skip_skip, encodeFields, List.length_append, Nat.add_assoc, BytesToHash_bytes,
    Bloom.ofArray_bytes]
  -- the tail is decoded from the same stream on both sides
  generalize decodeField _ _ = tailRead
  cases tailRead <;> rfl

/-- The parts of a header's encoding are shorter than the encoding. -/
theorem length_lt_encode (h : Header) :
    h.Signature.length ≤ h.encodeFields.length ∧ (bigBytes h.Number).length ≤ h.encodeFields.length ∧
      h.encodeFields.length + (h.DelegateDiff.map DelegateItem.EncodeRLP).flatten.length <
        h.encode.length := by
  have signature := length_le_encodeString h.Signature
  have number := length_le_encodeString (bigBytes h.Number)
  rw [← writeBigInt_eq] at number
  have head := length_puthead_pos 0xC0 0xF7
    (h.encodeFields ++ (h.DelegateDiff.map DelegateItem.EncodeRLP).flatten).length
  simp only [encode, encodeList, encodeFields, List.length_append] at head ⊢
  omega

/-- A header reads back from its encoding when its items have the two shapes
the item encoder tells apart. -/
theorem decode_reads (h : Header) (valid : ∀ d ∈ h.DelegateDiff, d.Valid)
    (small : h.encode.length < 2 ^ 64) : Reads decode h.encode h := by
  obtain ⟨signature, number, payload⟩ := length_lt_encode h
  apply decodeStruct_reads (by rw [List.length_append]; omega)
  intro s r left
  have items := left.skip
  -- each item takes a byte at least, so the fuel outlasts the items
  have enough : h.DelegateDiff.length < (s.skip h.encodeFields.length).rest.length + 1 := by
    have fewer := length_le_flatten h.DelegateDiff fun d _ => d.EncodeRLP_ne_nil
    rw [items.1, List.length_append]
    omega
  have tailRead := decodeSliceElems_reads h.DelegateDiff
    (fun d mem => DelegateItem.DecodeRLP_reads d (valid d mem))
    (fun _ _ atEnd => DelegateItem.DecodeRLP_of_Left_nil atEnd) enough items
  rw [decodeFields_eq h (by omega) (by omega) left, decodeField_of_ok tailRead]
  simp only [Except.map, Stream.skip_skip, List.length_append]

/-- Decoding headers from peers. A header whose items have the two shapes
reads back from its encoding, and the same encoding with an empty string
after the items makes the decoder panic rather than return an error. -/
theorem decode_panics_on_empty_item (h : Header) (valid : ∀ d ∈ h.DelegateDiff, d.Valid)
    (small : h.encode.length < 2 ^ 63) :
    DecodeBytes decode h.encode = .ok h ∧
      DecodeBytes decode (encodeList (h.encodeFields ++
        ((h.DelegateDiff.map DelegateItem.EncodeRLP).flatten ++ [0x80]))) =
        .error (.panic .indexOutOfRange) := by
  obtain ⟨signature, number, payload⟩ := length_lt_encode h
  have fits : h.encode.length < 2 ^ 64 := by omega
  refine ⟨(decode_reads h valid fits).decodeBytes, ?_⟩
  have fieldsFail : ∀ s r, s.Left (h.encodeFields ++
      ((h.DelegateDiff.map DelegateItem.EncodeRLP).flatten ++ [0x80])) r →
      decodeFields s = .error (.panic .indexOutOfRange) := by
    intro s r left
    have items := left.skip
    have enough : h.DelegateDiff.length < (s.skip h.encodeFields.length).rest.length + 1 := by
      have fewer := length_le_flatten h.DelegateDiff fun d _ => d.EncodeRLP_ne_nil
      rw [items.1, List.length_append, List.length_append]
      omega
    -- the items read back, and the empty string after them panics
    have tailFails := decodeSliceElems_of_fault h.DelegateDiff
      (fun d mem => DelegateItem.DecodeRLP_reads d (valid d mem))
      (show ∀ t : Stream, t.Left ([0x80] ++ []) r →
          DelegateItem.DecodeRLP t = .error (.panic .indexOutOfRange) from
        fun _ empty => DelegateItem.DecodeRLP_of_empty empty.le_room empty.rest_eq)
      (by decide) enough items
    rw [decodeFields_eq h (by omega) (by omega) left, decodeField_of_error tailFails (by decide)]
    rfl
  have failed := decodeStruct_of_fields
    (by simp only [List.length_append, List.length_singleton]; omega) fieldsFail
    (Nat.le_refl (Stream.ofBytes (encodeList (h.encodeFields ++
      ((h.DelegateDiff.map DelegateItem.EncodeRLP).flatten ++ [0x80])))).room)
    (List.append_nil _).symm
  unfold DecodeBytes
  rw [decode, failed]

/-- The zero header, the one `Header{}` holds before it is decoded into. -/
theorem decode_panics_on_empty_item_of_zero_header :
    let h : Header := ⟨BytesToHash [], [], BytesToHash [], BytesToHash [], BytesToHash [],
      Bloom.ofArray [], 0, 0, 0, 0, []⟩
    (∀ d ∈ h.DelegateDiff, d.Valid) ∧ h.encode.length < 2 ^ 63 ∧
      DecodeBytes decode h.encode = .ok h ∧
      DecodeBytes decode (encodeList (h.encodeFields ++
        ((h.DelegateDiff.map DelegateItem.EncodeRLP).flatten ++ [0x80]))) =
        .error (.panic .indexOutOfRange) := by
  intro h
  have valid : ∀ d ∈ h.DelegateDiff, d.Valid := fun _ mem => absurd mem List.not_mem_nil
  have small : h.encode.length < 2 ^ 63 := by decide +kernel
  exact ⟨valid, small, decode_panics_on_empty_item h valid small⟩

end Header

end Ebakus.Core.Types
