/-
# Addresses, hashes and byte padding

`common.Address` is a 20-byte array and `common.Hash` a 32-byte one. Both are
modelled as byte lists that carry their length, so that every address the
model builds has exactly the twenty bytes the Go array has. The conversions
`BytesToAddress` and `LeftPadBytes` crop and pad as the source does.
-/

import Mathlib.Data.Fintype.Vector
import Mathlib.Data.FinEnum
import Ebakus.Lang.Go

namespace Ebakus.Common

/-- `common.AddressLength`. -/
def AddressLength : Nat := 20

/-- `common.HashLength`. -/
def HashLength : Nat := 32

/-- `common.Address`: twenty bytes. -/
structure Address where
  bytes : List UInt8
  length_eq : bytes.length = AddressLength
  deriving DecidableEq

/-- `common.Hash`: thirty-two bytes. -/
structure Hash where
  bytes : List UInt8
  length_eq : bytes.length = HashLength
  deriving DecidableEq

/-- `common.LeftPadBytes`: zero-pad on the left up to `l` bytes; longer input
is returned as it is. -/
def LeftPadBytes (slice : List UInt8) (l : Nat) : List UInt8 :=
  if l ≤ slice.length then slice else List.replicate (l - slice.length) 0 ++ slice

/-- `common.RightPadBytes`: zero-pad on the right up to `l` bytes. -/
def RightPadBytes (slice : List UInt8) (l : Nat) : List UInt8 :=
  if l ≤ slice.length then slice else slice ++ List.replicate (l - slice.length) 0

@[simp]
theorem length_LeftPadBytes_of_le {slice : List UInt8} {l : Nat} (short : slice.length ≤ l) :
    (LeftPadBytes slice l).length = l := by
  unfold LeftPadBytes
  split
  · omega
  · simp only [List.length_append, List.length_replicate]
    omega

@[simp]
theorem length_RightPadBytes_of_le {slice : List UInt8} {l : Nat} (short : slice.length ≤ l) :
    (RightPadBytes slice l).length = l := by
  unfold RightPadBytes
  split
  · omega
  · simp only [List.length_append, List.length_replicate]
    omega

/-- Right-padding keeps the bytes it pads in front. -/
theorem take_RightPadBytes (slice : List UInt8) (l : Nat) :
    (RightPadBytes slice l).take slice.length = slice := by
  unfold RightPadBytes
  split
  · exact List.take_length
  · exact List.take_left' rfl

/-- `common.BytesToAddress`: keep the last twenty bytes and left-pad. -/
def BytesToAddress (b : List UInt8) : Address :=
  ⟨LeftPadBytes (b.drop (b.length - AddressLength)) AddressLength, by
    apply length_LeftPadBytes_of_le
    simp only [List.length_drop]
    omega⟩

/-- `common.BytesToHash`: keep the last thirty-two bytes and left-pad. -/
def BytesToHash (b : List UInt8) : Hash :=
  ⟨LeftPadBytes (b.drop (b.length - HashLength)) HashLength, by
    apply length_LeftPadBytes_of_le
    simp only [List.length_drop]
    omega⟩

namespace Address

/-- The zero address `common.Address{}`. -/
def zero : Address :=
  ⟨List.replicate AddressLength 0, List.length_replicate⟩

/-- Addresses are the vectors of twenty bytes. -/
def vectorEquiv : List.Vector UInt8 AddressLength ≃ Address where
  toFun := fun v => ⟨v.1, v.2⟩
  invFun := fun a => ⟨a.bytes, a.length_eq⟩
  left_inv := fun _ => rfl
  right_inv := fun _ => rfl

/-- There are finitely many addresses. The enumeration is irreducible, so that
no proof about sums over all addresses ever unfolds it. -/
@[irreducible]
def fintype : Fintype Address :=
  Fintype.ofEquiv _ vectorEquiv

instance : Fintype Address :=
  fintype

theorem bytes_injective : Function.Injective Address.bytes := by
  rintro ⟨first, firstLength⟩ ⟨second, secondLength⟩ same
  cases same
  rfl

@[simp]
theorem bytes_inj {a b : Address} : a.bytes = b.bytes ↔ a = b :=
  bytes_injective.eq_iff

/-- An address converts back to itself: twenty bytes need no cropping or padding. -/
@[simp]
theorem BytesToAddress_bytes (a : Address) : BytesToAddress a.bytes = a := by
  apply bytes_injective
  simp only [BytesToAddress, a.length_eq, Nat.sub_self, List.drop_zero, LeftPadBytes,
    le_refl, if_true]

/-- Two addresses followed by anything are told apart by their bytes. -/
theorem eq_of_bytes_prefix {a b : Address} {rest : List UInt8} (pre : a.bytes <+: b.bytes ++ rest) :
    a = b := by
  apply bytes_injective
  obtain ⟨tail, split⟩ := pre
  have lengths : a.bytes.length = b.bytes.length := by rw [a.length_eq, b.length_eq]
  exact (List.append_inj split lengths).1

end Address

/-- A hash converts back to itself. -/
@[simp]
theorem BytesToHash_bytes (h : Hash) : BytesToHash h.bytes = h := by
  rcases h with ⟨bytes, length_eq⟩
  simp only [BytesToHash, length_eq, Nat.sub_self, List.drop_zero, LeftPadBytes, le_refl, if_true]

end Ebakus.Common
