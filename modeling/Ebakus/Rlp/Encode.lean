/-
# RLP encoding (`rlp/encode.go`)

A byte string below `0x80` of length one is its own encoding; any other
string is a header with its length and then the bytes. A list is a header
with the length of its payload, the concatenation of its items' encodings.
Headers and integers use the fewest big-endian bytes that hold them.
-/

import Ebakus.Rlp.Stream

namespace Ebakus.Rlp

/-- The big-endian bytes of `n`, at most `fuel` of them. -/
def bigBytesUpTo : Nat → Nat → List UInt8
  | 0, _ => []
  | fuel + 1, n => if n = 0 then [] else bigBytesUpTo fuel (n / 256) ++ [(n % 256).toUInt8]

/-- `big.Int.Bytes`: the big-endian bytes of a number, without leading zeros;
none for zero. A number has no more bytes than it is large. -/
def bigBytes (n : Nat) : List UInt8 :=
  bigBytesUpTo n n

/-- Any fuel from the number up gives the same bytes. -/
theorem bigBytesUpTo_eq {fuel n : Nat} (enough : n ≤ fuel) : bigBytesUpTo fuel n = bigBytes n := by
  suffices same : ∀ fuel other n, n ≤ fuel → n ≤ other → bigBytesUpTo fuel n = bigBytesUpTo other n from
    same fuel n n enough (Nat.le_refl n)
  intro fuel
  induction fuel with
  | zero =>
    intro other n none _
    rw [Nat.le_zero.mp none]
    cases other <;> simp only [bigBytesUpTo, if_true]
  | succ fuel ih =>
    intro other n within within'
    cases other with
    | zero => rw [Nat.le_zero.mp within']; simp only [bigBytesUpTo, if_true]
    | succ other =>
      simp only [bigBytesUpTo]
      split
      · rfl
      · rw [ih other (n / 256) (by omega) (by omega)]

theorem bigBytes_zero : bigBytes 0 = [] := rfl

theorem bigBytes_of_pos {n : Nat} (pos : 0 < n) :
    bigBytes n = bigBytes (n / 256) ++ [(n % 256).toUInt8] := by
  obtain ⟨fuel, rfl⟩ : ∃ fuel, n = fuel + 1 := ⟨n - 1, by omega⟩
  rw [bigBytes, bigBytesUpTo, if_neg (Nat.succ_ne_zero fuel), bigBytesUpTo_eq (by omega)]

theorem bigBytes_ne_nil {n : Nat} (pos : 0 < n) : bigBytes n ≠ [] := by
  rw [bigBytes_of_pos pos]
  exact List.append_ne_nil_of_right_ne_nil _ (List.cons_ne_nil _ _)

/-- The bytes read back as the number they were taken from. -/
theorem bigEndian_bigBytes (n : Nat) : Stream.bigEndian (bigBytes n) = n := by
  induction n using Nat.strongRecOn with
  | ind n ih =>
    rcases Nat.eq_zero_or_pos n with rfl | pos
    · rw [bigBytes_zero, Stream.bigEndian_nil]
    rw [bigBytes_of_pos pos, Stream.bigEndian_append_single, ih (n / 256) (by omega)]
    simp only [Nat.toUInt8_eq, UInt8.toNat_ofNat', Nat.reducePow, Nat.mod_mod]
    omega

/-- There is no leading zero byte. -/
theorem head_bigBytes_ne_zero (n : Nat) : (bigBytes n).head? ≠ some 0 := by
  induction n using Nat.strongRecOn with
  | ind n ih =>
    rcases Nat.eq_zero_or_pos n with rfl | pos
    · simp only [bigBytes_zero, List.head?_nil, ne_eq, reduceCtorEq, not_false_eq_true]
    rw [bigBytes_of_pos pos]
    rcases Nat.eq_zero_or_pos (n / 256) with high | high
    · -- one byte, the number itself
      rw [high, bigBytes_zero, List.nil_append, List.head?_cons, ne_eq, Option.some_inj,
        ← UInt8.toNat_inj]
      simp only [Nat.toUInt8_eq, UInt8.toNat_ofNat', Nat.reducePow, Nat.mod_mod, UInt8.toNat_zero]
      omega
    · rw [List.head?_append_of_ne_nil _ (bigBytes_ne_nil high)]
      exact ih (n / 256) (by omega)

/-- A number below `256 ^ k` takes at most `k` bytes. -/
theorem length_bigBytes_le {n k : Nat} (lt : n < 256 ^ k) : (bigBytes n).length ≤ k := by
  induction k generalizing n with
  | zero =>
    rw [Nat.pow_zero, Nat.lt_one_iff] at lt
    exact Nat.le_of_eq (by rw [lt, bigBytes_zero, List.length_nil])
  | succ k ih =>
    rcases Nat.eq_zero_or_pos n with rfl | pos
    · rw [bigBytes_zero, List.length_nil]
      exact Nat.zero_le _
    · have high : n / 256 < 256 ^ k := by
        rw [Nat.pow_succ] at lt
        omega
      rw [bigBytes_of_pos pos, List.length_append, List.length_singleton]
      exact Nat.succ_le_succ (ih high)

/-- `putint`: the big-endian bytes of a size, at least one. -/
def putint (i : Nat) : List UInt8 :=
  if i = 0 then [0] else bigBytes i

/-- `puthead`: the header of a string or a list of `size` bytes. -/
def puthead (smalltag largetag : UInt8) (size : Nat) : List UInt8 :=
  if size < 56 then [smalltag + size.toUInt8]
  else (largetag + (putint size).length.toUInt8) :: putint size

/-- `encodeString`. -/
def encodeString (b : List UInt8) : List UInt8 :=
  match b with
  | [byte] => if byte ≤ 0x7F then [byte] else puthead 0x80 0xB7 1 ++ b
  | _ => puthead 0x80 0xB7 b.length ++ b

theorem le_0x7F_iff {x : UInt8} : x ≤ 0x7F ↔ x < 0x80 := by
  rw [UInt8.le_iff_toNat_le, UInt8.lt_iff_toNat_lt]
  simp only [UInt8.reduceToNat]
  omega

/-- One byte below `0x80` is its own encoding. -/
theorem encodeString_single {x : UInt8} (small : x < 0x80) : encodeString [x] = [x] := by
  rw [encodeString, if_pos (le_0x7F_iff.mpr small)]

/-- Any other string is written after a header with its length. -/
theorem encodeString_of_header {b : List UInt8} (notSingle : ∀ x, b = [x] → 0x80 ≤ x) :
    encodeString b = puthead 0x80 0xB7 b.length ++ b := by
  match b, notSingle with
  | [x], notSingle =>
    have large : ¬x ≤ 0x7F := fun small => absurd (le_0x7F_iff.mp small) (UInt8.not_lt.mpr (notSingle x rfl))
    rw [encodeString, if_neg large]
    rfl
  | [], _ => rfl
  | _ :: _ :: _, _ => rfl

theorem length_le_encodeString (b : List UInt8) : b.length ≤ (encodeString b).length := by
  by_cases single : ∃ x, b = [x] ∧ x < 0x80
  · obtain ⟨x, rfl, small⟩ := single
    exact Nat.le_of_eq (congrArg List.length (encodeString_single small).symm)
  · rw [encodeString_of_header (fun x bx => UInt8.not_lt.mp fun small => single ⟨x, bx, small⟩),
      List.length_append]
    exact Nat.le_add_left _ _

/-- `writeUint`. -/
def writeUint (i : UInt64) : List UInt8 :=
  if i = 0 then [0x80]
  else if i < 128 then [i.toUInt8]
  else (0x80 + (putint i.toNat).length.toUInt8) :: putint i.toNat

/-- `writeBigInt` of a non-negative integer. -/
def writeBigInt (n : Nat) : List UInt8 :=
  if n = 0 then [0x80] else encodeString (bigBytes n)

/-- A number is written as the string of its bytes. -/
theorem writeBigInt_eq (n : Nat) : writeBigInt n = encodeString (bigBytes n) := by
  unfold writeBigInt
  split
  · subst n
    rfl
  · rfl

/-- An unsigned integer too is written as the string of its bytes: below
`0x80` it is one byte, which is its own encoding. -/
theorem writeUint_eq (i : UInt64) : writeUint i = encodeString (bigBytes i.toNat) := by
  unfold writeUint
  split
  · subst i
    rfl
  rename_i nonzero
  have pos : 0 < i.toNat := by
    rw [← UInt64.toNat_inj, UInt64.toNat_zero] at nonzero
    omega
  split
  · -- one byte below 0x80
    rename_i small
    rw [UInt64.lt_iff_toNat_lt] at small
    simp only [UInt64.reduceToNat] at small
    rw [bigBytes_of_pos pos, Nat.div_eq_of_lt (by omega), bigBytes_zero, List.nil_append,
      encodeString_single]
    · simp only [Nat.toUInt8_eq, Nat.mod_eq_of_lt (show i.toNat < 256 by omega), UInt8.ofNat_uInt64ToNat]
    · rw [UInt8.lt_iff_toNat_lt]
      simp only [Nat.toUInt8_eq, UInt8.toNat_ofNat', Nat.reducePow, UInt8.reduceToNat]
      omega
  · -- a string of one to eight bytes, the first of them not zero
    rename_i large
    rw [UInt64.lt_iff_toNat_lt] at large
    simp only [UInt64.reduceToNat] at large
    have fewBytes : (bigBytes i.toNat).length ≤ 8 := length_bigBytes_le (by simpa using i.toNat_lt)
    have notSingle : ∀ x, bigBytes i.toNat = [x] → 0x80 ≤ x := by
      intro x single
      have value := bigEndian_bigBytes i.toNat
      simp only [single, Stream.bigEndian, List.foldl_cons, List.foldl_nil, Nat.zero_mul,
        Nat.zero_add] at value
      rw [UInt8.le_iff_toNat_le, value]
      simp only [UInt8.reduceToNat]
      omega
    rw [encodeString_of_header notSingle, puthead, if_pos (by omega), putint, if_neg (by omega)]
    rfl

/-- A list around the encodings of its items. -/
def encodeList (payload : List UInt8) : List UInt8 :=
  puthead 0xC0 0xF7 payload.length ++ payload

end Ebakus.Rlp
