/-
# Go slices, run-time panics and `encoding/binary`

The modelled code is Go. Two features of the language decide whether a
function returns at all: slice expressions check their bounds at run time and
panic when they fail, and so do index expressions and the fixed-width readers
of `encoding/binary`, and `make` panics for a slice longer than the runtime
allocates. A Go computation is therefore modelled as an `Except` over the
panics it can raise.

A slice is a window onto a backing array. `s[low:]` checks `low` against the
length of the window, while `s[:high]` checks `high` against the capacity,
which may extend past the length. The model keeps the backing array from the
window's first element to the end of the capacity, so that both checks can be
stated exactly.
-/

import Mathlib

namespace Ebakus.Lang

/-- Run-time panics raised by the modelled code. -/
inductive Panic
  | sliceBoundsOutOfRange
  | indexOutOfRange
  | nilDereference
  | integerDivideByZero
  /-- A method of `reflect.Value` called on the zero `Value`. -/
  | zeroValue
  /-- `panic` called by the code itself, with its message. -/
  | explicit (message : String)
  /-- A type assertion `x.(T)` on a value of another dynamic type. -/
  | typeAssertion
  /-- `makeslice: len out of range`: `make` of more bytes than `maxAlloc`. -/
  | makeSliceLen
  deriving DecidableEq, Repr

/-- The runtime's `maxAlloc` on 64-bit platforms, `1 << heapAddrBits`: the
most bytes `make` allocates. -/
def maxAlloc : Nat := 2 ^ 48

/-- A Go computation: it returns a value or it panics. -/
abbrev Go (α : Type) := Except Panic α

/-- A Go slice: `len` elements of a backing array whose remaining part is the
slice's capacity. -/
structure Slice (α : Type) where
  backing : List α
  len : Nat
  len_le : len ≤ backing.length

namespace Slice

variable {α : Type}

/-- The elements the slice shows. -/
def toList (s : Slice α) : List α :=
  s.backing.take s.len

/-- `cap(s)`. -/
def cap (s : Slice α) : Nat :=
  s.backing.length

/-- A slice whose capacity is its length, as `make` and composite literals build. -/
def ofList (l : List α) : Slice α :=
  ⟨l, l.length, Nat.le_refl _⟩

/-- `s[:high]`: the high bound may reach the capacity. -/
def sliceTo (s : Slice α) (high : Nat) : Go (Slice α) :=
  if h : high ≤ s.cap then .ok ⟨s.backing, high, h⟩ else .error .sliceBoundsOutOfRange

/-- `s[low:]`: the low bound may reach the length only. -/
def sliceFrom (s : Slice α) (low : Nat) : Go (Slice α) :=
  if h : low ≤ s.len then
    .ok ⟨s.backing.drop low, s.len - low, by
      have := s.len_le
      simp only [List.length_drop]
      omega⟩
  else .error .sliceBoundsOutOfRange

/-- `s[i]`. -/
def get (s : Slice α) (i : Nat) : Go α :=
  match s.toList[i]? with
  | some a => .ok a
  | none => .error .indexOutOfRange

@[simp]
theorem length_toList (s : Slice α) : s.toList.length = s.len := by
  have := s.len_le
  simp only [toList, List.length_take]
  omega

@[simp]
theorem toList_ofList (l : List α) : (ofList l).toList = l := by
  simp [ofList, toList]

@[simp]
theorem len_ofList (l : List α) : (ofList l).len = l.length := rfl

theorem sliceFrom_of_lt {s : Slice α} {low : Nat} (short : s.len < low) :
    s.sliceFrom low = .error .sliceBoundsOutOfRange := by
  unfold sliceFrom
  rw [dif_neg (by omega)]

/-- `s[:high]` fails only by a bounds panic. -/
theorem sliceTo_eq_error {s : Slice α} {high : Nat} {p : Panic}
    (panicked : s.sliceTo high = .error p) : p = .sliceBoundsOutOfRange := by
  unfold sliceTo at panicked
  split at panicked
  · cases panicked
  · cases panicked
    rfl

end Slice

/-- A sequenced computation that returned a value ran its first part to a
value, and the rest from there. This peels a `do` block one bind at a time. -/
theorem bind_eq_ok {ε α β : Type} {x : Except ε α} {f : α → Except ε β} {b : β}
    (ran : (x >>= f) = .ok b) : ∃ a, x = .ok a ∧ f a = .ok b := by
  cases x with
  | error e => cases ran
  | ok a => exact ⟨a, rfl, ran⟩

@[simp]
theorem error_bind {ε α β : Type} (e : ε) (f : α → Except ε β) : (Except.error e >>= f) = .error e :=
  rfl

@[simp]
theorem ok_bind {ε α β : Type} (a : α) (f : α → Except ε β) : (Except.ok a >>= f) = f a :=
  rfl

@[simp]
theorem pure_eq_ok {ε α : Type} (a : α) : (pure a : Except ε α) = .ok a :=
  rfl

attribute [simp] Except.map_error Except.map_ok

/-- `binary.BigEndian.Uint64`: the first eight bytes, most significant first.
The function reads `b[7]` first and so panics on a shorter slice. -/
def bigEndianUint64 (b : List UInt8) : Go UInt64 :=
  match b with
  | b0 :: b1 :: b2 :: b3 :: b4 :: b5 :: b6 :: b7 :: _ =>
      .ok (UInt64.ofNat (b0.toNat * 2 ^ 56 + b1.toNat * 2 ^ 48 + b2.toNat * 2 ^ 40 +
        b3.toNat * 2 ^ 32 + b4.toNat * 2 ^ 24 + b5.toNat * 2 ^ 16 + b6.toNat * 2 ^ 8 + b7.toNat))
  | _ => .error .indexOutOfRange

/-- Byte `k` of a 64-bit word, counted from the least significant. -/
def byteOf (v : UInt64) (k : Nat) : UInt8 :=
  UInt8.ofNat (v.toNat / 2 ^ (8 * k) % 256)

/-- `binary.BigEndian.PutUint64` into a fresh eight-byte buffer. -/
def putBigEndianUint64 (v : UInt64) : List UInt8 :=
  [byteOf v 7, byteOf v 6, byteOf v 5, byteOf v 4, byteOf v 3, byteOf v 2, byteOf v 1, byteOf v 0]

/-- `binary.LittleEndian.PutUint64` into a fresh eight-byte buffer. -/
def putLittleEndianUint64 (v : UInt64) : List UInt8 :=
  (putBigEndianUint64 v).reverse

@[simp]
theorem length_putBigEndianUint64 (v : UInt64) : (putBigEndianUint64 v).length = 8 := rfl

@[simp]
theorem length_putLittleEndianUint64 (v : UInt64) : (putLittleEndianUint64 v).length = 8 := rfl

theorem toNat_byteOf (v : UInt64) (k : Nat) : (byteOf v k).toNat = v.toNat / 2 ^ (8 * k) % 256 := by
  simp only [byteOf, UInt8.toNat_ofNat']
  omega

/-- Reading back what `PutUint64` wrote gives the value written. -/
@[simp]
theorem bigEndianUint64_putBigEndianUint64 (v : UInt64) :
    bigEndianUint64 (putBigEndianUint64 v) = .ok v := by
  simp only [bigEndianUint64, putBigEndianUint64, Except.ok.injEq]
  apply UInt64.toNat_inj.mp
  have bound := v.toNat_lt
  simp only [UInt64.toNat_ofNat', toNat_byteOf]
  omega

theorem putBigEndianUint64_inj {a b : UInt64} (same : putBigEndianUint64 a = putBigEndianUint64 b) :
    a = b := by
  have readBack := bigEndianUint64_putBigEndianUint64 a
  rw [same, bigEndianUint64_putBigEndianUint64] at readBack
  exact (Except.ok.inj readBack).symm

end Ebakus.Lang
