/-
# The sparse bitset codec (`common/bitutil/compress.go`)

`CompressBytes` writes a byte string as the encoding of its non-zero bitset
(one bit a byte, most significant bit first) followed by its non-zero bytes;
the bitset is encoded the same way, down to one byte. `DecompressBytes` undoes
this knowing the length of the result: it decodes the bitset for a target an
eighth as long, and then places the bytes the bitset marks, reading them from
one pointer that runs on from where the nested levels stopped.

The decoder's target is an `int`. `DecompressBytes` refuses a target below the
length of its input, so the decoder proper is only reached with a positive
target, which the model takes as a `Nat`. The decoder allocates its output
with `make([]byte, target)`, which panics for a target past `maxAlloc`
(`2^48` on 64-bit platforms); the copy `DecompressBytes` makes of an input as
long as the target is of a slice Go already holds, so it never does. The encoder's writes into the bitset
fall inside it, since the bitset has a byte for every eight input bytes; the
model writes with `List.modify`, which has Go's effect there. The errors carry
the pointer the code returns beside them, which no caller reads; the model
leaves it out.

The codec is lossless: decoding the compressed form of a string for its
length gives the string back, and the compressed form is never longer. The
decoder is total up to `maxAlloc`: every input and every target up to it give
a result or an error, and a result has the length asked for. A larger target
panics in `make`.
-/

import Mathlib.Data.Nat.Bitwise
import Ebakus.Lang.Go

namespace Ebakus.Common.Bitutil

open Ebakus.Lang

/-- The errors of decompression. -/
inductive BitError
  | errMissingData
  | errUnreferencedData
  | errExceededTarget
  | errZeroContent
  deriving DecidableEq, Repr

/-- The text of each error. -/
def BitError.message : BitError → String
  | .errMissingData => "missing bytes on input"
  | .errUnreferencedData => "extra bytes on input"
  | .errExceededTarget => "target data size exceeded"
  | .errZeroContent => "zero byte in input content"

/-- `1 << byte(7-i%8)`: the bit of position `i` in its byte of a bitset. -/
def bitMask (i : Nat) : UInt8 :=
  1 <<< (7 - i % 8).toUInt8

/-! ### Compression -/

/-- The loop of `bitsetEncodeBytes` over `data` from index `i`: each non-zero
byte sets its bit in the bitset and is appended to the non-zero bytes. -/
def encodeLoop : List UInt8 → Nat → List UInt8 → List UInt8 → List UInt8 × List UInt8
  | [], _, nonZeroBitset, nonZeroBytes => (nonZeroBitset, nonZeroBytes)
  | b :: rest, i, nonZeroBitset, nonZeroBytes =>
    if b ≠ 0 then
      encodeLoop rest (i + 1) (nonZeroBitset.modify (i / 8) (· ||| bitMask i)) (nonZeroBytes ++ [b])
    else encodeLoop rest (i + 1) nonZeroBitset nonZeroBytes

/-- The loop keeps the length of the bitset. -/
theorem length_encodeLoop (data : List UInt8) :
    ∀ i nonZeroBitset nonZeroBytes, (encodeLoop data i nonZeroBitset nonZeroBytes).1.length =
      nonZeroBitset.length := by
  induction data with
  | nil => intro _ _ _; rfl
  | cons b rest ih =>
    intro i nonZeroBitset nonZeroBytes
    unfold encodeLoop
    split
    · rw [ih, List.length_modify]
    · rw [ih]

/-- A string of two bytes or more has fewer bitset bytes than bytes. -/
theorem bitset_length_lt {n : Nat} (long : 2 ≤ n) : (n + 7) / 8 < n := by
  omega

/-- `bitsetEncodeBytes`. -/
def bitsetEncodeBytes (data : List UInt8) : List UInt8 :=
  match data with
  | [] => []
  | [b] => if b = 0 then [] else [b]
  | data@(_ :: _ :: _) =>
    let loop := encodeLoop data 0 (List.replicate ((data.length + 7) / 8) 0) []
    if loop.2.length = 0 then []
    else bitsetEncodeBytes loop.1 ++ loop.2
termination_by data.length
decreasing_by
  -- the match's equation `data = _ :: _ :: _`, and the test of the non-zero bytes
  rename_i shape _
  rw [length_encodeLoop, List.length_replicate]
  subst shape
  exact bitset_length_lt (by simp)

/-- `CompressBytes`: the encoding where it is shorter, and otherwise a copy. -/
def CompressBytes (data : List UInt8) : List UInt8 :=
  let out := bitsetEncodeBytes data
  if out.length < data.length then out else data

/-! ### Decompression -/

/-- The loop of `bitsetDecodePartialBytes` over the positions `is` of the
bitset: each set bit takes the byte at `ptr` into its place in `decomp`. -/
def decodeLoop (data nonZeroBitset : List UInt8) :
    List Nat → List UInt8 → Nat → Go (Except BitError (List UInt8 × Nat))
  | [], decomp, ptr => .ok (.ok (decomp, ptr))
  | i :: is, decomp, ptr =>
    match nonZeroBitset[i / 8]? with
    | none => .error .indexOutOfRange
    | some bits =>
      if bits &&& bitMask i ≠ 0 then
        if ptr ≥ data.length then .ok (.error .errMissingData)
        else if i ≥ decomp.length then .ok (.error .errExceededTarget)
        else
          match data[ptr]? with
          | none => .error .indexOutOfRange
          | some b =>
            if b = 0 then .ok (.error .errZeroContent)
            else decodeLoop data nonZeroBitset is (decomp.set i b) (ptr + 1)
      else decodeLoop data nonZeroBitset is decomp ptr

/-- `bitsetDecodePartialBytes`: the decompressed bytes and how much of `data`
they took. -/
def bitsetDecodePartialBytes (data : List UInt8) (target : Nat) :
    Go (Except BitError (List UInt8 × Nat)) :=
  if target = 0 then .ok (.ok ([], 0))
  else if maxAlloc < target then .error .makeSliceLen
  else
    let decomp := List.replicate target 0
    match data with
    | [] => .ok (.ok (decomp, 0))
    | b :: _ =>
      if target = 1 then
        if b ≠ 0 then .ok (.ok (decomp.set 0 b, 1)) else .ok (.ok (decomp.set 0 b, 0))
      else do
        match ← bitsetDecodePartialBytes data ((target + 7) / 8) with
        | .error err => return .error err
        | .ok (nonZeroBitset, ptr) =>
          decodeLoop data nonZeroBitset (List.range (8 * nonZeroBitset.length)) decomp ptr
termination_by target
decreasing_by exact bitset_length_lt (by omega)

/-- `bitsetDecodeBytes`: the input must be used up. -/
def bitsetDecodeBytes (data : List UInt8) (target : Nat) : Go (Except BitError (List UInt8)) := do
  match ← bitsetDecodePartialBytes data target with
  | .error err => return .error err
  | .ok (out, size) =>
    if size ≠ data.length then return .error .errUnreferencedData
    else return .ok out

/-- `DecompressBytes`: an input as long as the target is a copy. -/
def DecompressBytes (data : List UInt8) (target : Int) : Go (Except BitError (List UInt8)) :=
  if (data.length : Int) > target then .ok (.error .errExceededTarget)
  else if (data.length : Int) = target then .ok (.ok data)
  else bitsetDecodeBytes data target.toNat

/-! ### Bits of a bitset -/

/-- `nonZeroBitset[i/8]&(1<<byte(7-i%8)) != 0`: the bit of position `i`. -/
def bitSet (nonZeroBitset : List UInt8) (i : Nat) : Bool :=
  nonZeroBitset.getD (i / 8) 0 &&& bitMask i != 0

theorem toNat_bitMask (i : Nat) : (bitMask i).toNat = 2 ^ (7 - i % 8) := by
  have table : ∀ r < 8, ((1 : UInt8) <<< (7 - r).toUInt8).toNat = 2 ^ (7 - r) := by decide
  exact table (i % 8) (Nat.mod_lt _ (by decide))

/-- The mask picks bit `7 - i % 8` of a byte. -/
theorem and_bitMask_ne_zero (b : UInt8) (i : Nat) :
    (b &&& bitMask i != 0) = b.toNat.testBit (7 - i % 8) := by
  have anded : (b &&& bitMask i).toNat = (b.toNat.testBit (7 - i % 8)).toNat * 2 ^ (7 - i % 8) := by
    rw [UInt8.toNat_and, toNat_bitMask, Nat.and_two_pow]
  rw [Bool.eq_iff_iff, bne_iff_ne, ne_eq, ← UInt8.toNat_inj, anded]
  cases b.toNat.testBit (7 - i % 8) <;> simp

/-- Setting the bit of position `i` in its byte sets that bit and no other. -/
theorem bitSet_modify {nonZeroBitset : List UInt8} {i : Nat} (inside : i / 8 < nonZeroBitset.length)
    (k : Nat) :
    bitSet (nonZeroBitset.modify (i / 8) (· ||| bitMask i)) k = (bitSet nonZeroBitset k || decide (k = i)) := by
  simp only [bitSet, and_bitMask_ne_zero, List.getD_eq_getElem?_getD, List.getElem?_modify]
  by_cases same : i / 8 = k / 8
  · have here : nonZeroBitset[k / 8]? = some nonZeroBitset[i / 8] := by
      rw [← same]
      exact List.getElem?_eq_getElem inside
    have sameBit : (7 - i % 8 = 7 - k % 8) ↔ k = i := by omega
    simp [here, same, UInt8.toNat_or, Nat.testBit_or, toNat_bitMask, Nat.testBit_two_pow, sameBit]
  · have other : k ≠ i := fun eq => same (by rw [eq])
    simp [same, other]

/-- A set bit lies in a non-zero byte. -/
theorem exists_ne_zero_of_bitSet {nonZeroBitset : List UInt8} {k : Nat} (set : bitSet nonZeroBitset k = true) :
    ∃ b ∈ nonZeroBitset, b ≠ 0 := by
  have inside : k / 8 < nonZeroBitset.length := by
    by_contra outside
    rw [bitSet, List.getD_eq_default _ _ (by omega)] at set
    simp at set
  refine ⟨nonZeroBitset[k / 8], List.getElem_mem inside, fun zero => ?_⟩
  rw [bitSet, List.getD_eq_getElem _ _ inside, zero] at set
  simp at set

/-! ### The encoder -/

/-- The positions `i ≤ k` of `b :: rest`, read from `i`, split into the first
and the rest. -/
theorem getD_cons_shift (b : UInt8) (rest : List UInt8) (i k : Nat) :
    (decide (i ≤ k) && (b :: rest).getD (k - i) 0 != 0) =
      ((decide (k = i) && b != 0) || (decide (i + 1 ≤ k) && rest.getD (k - (i + 1)) 0 != 0)) := by
  rcases Nat.lt_trichotomy k i with before | here | after
  · simp [Nat.not_le.mpr before, Nat.ne_of_lt before, show ¬ i + 1 ≤ k by omega]
  · subst here
    simp
  · have shift : k - i = k - (i + 1) + 1 := by omega
    simp [Nat.le_of_lt after, Nat.ne_of_gt after, show i + 1 ≤ k by omega, shift]

/-- The loop gathers the non-zero bytes in order. -/
theorem encodeLoop_snd (data : List UInt8) : ∀ i nonZeroBitset nonZeroBytes,
    (encodeLoop data i nonZeroBitset nonZeroBytes).2 = nonZeroBytes ++ data.filter (· ≠ 0) := by
  induction data with
  | nil => intro _ _ _; simp [encodeLoop]
  | cons b rest ih =>
    intro i nonZeroBitset nonZeroBytes
    unfold encodeLoop
    split
    · next nonzero => simp [ih, nonzero]
    · next zero => simp [ih, zero]

/-- The loop sets the bit of every non-zero byte, from index `i` on, in a
bitset long enough for them. -/
theorem bitSet_encodeLoop (data : List UInt8) : ∀ i nonZeroBitset nonZeroBytes,
    (i + data.length + 7) / 8 ≤ nonZeroBitset.length → ∀ k,
      bitSet (encodeLoop data i nonZeroBitset nonZeroBytes).1 k =
        (bitSet nonZeroBitset k || (decide (i ≤ k) && data.getD (k - i) 0 != 0)) := by
  induction data with
  | nil => intro _ _ _ _ _; simp [encodeLoop]
  | cons b rest ih =>
    intro i nonZeroBitset nonZeroBytes long k
    simp only [List.length_cons] at long
    rw [getD_cons_shift]
    unfold encodeLoop
    split
    · next nonzero =>
      have inside : i / 8 < nonZeroBitset.length := by omega
      have set : (b != 0) = true := bne_iff_ne.mpr nonzero
      rw [ih _ _ _ (by rw [List.length_modify]; omega), bitSet_modify inside, set, Bool.and_true,
        Bool.or_assoc]
    · next zero =>
      rw [ih _ _ _ (by omega)]
      simp only [not_not] at zero
      simp [zero]

/-- `nonZeroBitset(data)`: the bitset `bitsetEncodeBytes` builds. -/
def nonZeroBitset (data : List UInt8) : List UInt8 :=
  (encodeLoop data 0 (List.replicate ((data.length + 7) / 8) 0) []).1

theorem length_nonZeroBitset (data : List UInt8) : (nonZeroBitset data).length = (data.length + 7) / 8 := by
  rw [nonZeroBitset, length_encodeLoop, List.length_replicate]

/-- Bit `k` of the bitset is set exactly where `data` has a non-zero byte. -/
theorem bitSet_nonZeroBitset (data : List UInt8) (k : Nat) :
    bitSet (nonZeroBitset data) k = (data.getD k 0 != 0) := by
  rw [nonZeroBitset, bitSet_encodeLoop _ _ _ _ (by simp)]
  simp [bitSet]

theorem bitsetEncodeBytes_nil : bitsetEncodeBytes [] = [] := by
  rw [bitsetEncodeBytes]

theorem bitsetEncodeBytes_single (b : UInt8) : bitsetEncodeBytes [b] = if b = 0 then [] else [b] := by
  rw [bitsetEncodeBytes]

/-- `bitsetEncodeBytes` on two bytes or more: the encoding of the bitset
followed by the non-zero bytes, or nothing when there are none. -/
theorem bitsetEncodeBytes_of_two_le {data : List UInt8} (long : 2 ≤ data.length) :
    bitsetEncodeBytes data =
      if data.filter (· ≠ 0) = [] then []
      else bitsetEncodeBytes (nonZeroBitset data) ++ data.filter (· ≠ 0) := by
  match data, long with
  | _ :: _ :: _, _ =>
    rw [bitsetEncodeBytes, nonZeroBitset, encodeLoop_snd, List.nil_append]
    simp only [List.length_eq_zero_iff]

/-! ### The decoder on an encoding -/

/-- The non-zero bytes of `d` at positions `j` to `j + m`, in order: what the
decoder reads for those positions. -/
def marked (d : List UInt8) (j m : Nat) : List UInt8 :=
  ((List.range' j m).map (d.getD · 0)).filter (· ≠ 0)

theorem marked_succ (d : List UInt8) (j m : Nat) :
    marked d j (m + 1) = if d.getD j 0 = 0 then marked d (j + 1) m else d.getD j 0 :: marked d (j + 1) m := by
  unfold marked
  rw [List.range'_succ, List.map_cons, List.filter_cons]
  simp

/-- Over all positions the marked bytes are the non-zero bytes of `d`. -/
theorem marked_of_le {d : List UInt8} {m : Nat} (within : d.length ≤ m) :
    marked d 0 m = d.filter (· ≠ 0) := by
  have padded : (List.range' 0 m).map (d.getD · 0) = d ++ List.replicate (m - d.length) 0 := by
    apply List.ext_getElem (by simp; omega)
    intro k inRange inPadded
    simp only [List.getElem_map, List.getElem_range', List.getElem_append, List.getElem_replicate,
      Nat.zero_add, Nat.one_mul]
    split
    · next short => exact List.getD_eq_getElem _ _ short
    · next long => exact List.getD_eq_default _ _ (Nat.le_of_not_lt long)
  rw [marked, padded, List.filter_append, List.filter_replicate]
  simp

/-- `decomp` holds `d` below position `j` and zeros from there on. -/
structure FilledTo (d decomp : List UInt8) (j : Nat) : Prop where
  length_eq : decomp.length = d.length
  getD_eq : ∀ k, decomp.getD k 0 = if k < j then d.getD k 0 else 0

theorem filledTo_replicate (d : List UInt8) : FilledTo d (List.replicate d.length 0) 0 :=
  ⟨List.length_replicate, fun k => by
    rw [List.getD_eq_getElem?_getD, List.getElem?_replicate]
    split <;> simp⟩

/-- A zero byte of `d` is already in place. -/
theorem FilledTo.skip {d decomp : List UInt8} {j : Nat} (fill : FilledTo d decomp j) (zero : d.getD j 0 = 0) :
    FilledTo d decomp (j + 1) := by
  refine ⟨fill.length_eq, fun k => ?_⟩
  rw [fill.getD_eq k]
  by_cases here : k = j
  · subst here
    rw [if_neg (Nat.lt_irrefl _), if_pos (Nat.lt_succ_self _), zero]
  · by_cases below : k < j
    · simp [below, show k < j + 1 by omega]
    · simp [below, show ¬ k < j + 1 by omega]

/-- Writing the byte of position `j` fills one position more. -/
theorem FilledTo.set {d decomp : List UInt8} {j : Nat} (fill : FilledTo d decomp j) (inside : j < decomp.length) :
    FilledTo d (decomp.set j (d.getD j 0)) (j + 1) := by
  refine ⟨by rw [List.length_set, fill.length_eq], fun k => ?_⟩
  have before := fill.getD_eq k
  rw [List.getD_eq_getElem?_getD] at before ⊢
  rw [List.getElem?_set]
  by_cases here : j = k
  · subst here
    simp [inside]
  · rw [if_neg here, before]
    by_cases below : k < j
    · simp [below, show k < j + 1 by omega]
    · simp [below, show ¬ k < j + 1 by omega]

/-- Filled past its end, `decomp` is `d`. -/
theorem FilledTo.eq {d decomp : List UInt8} {j : Nat} (fill : FilledTo d decomp j) (all : d.length ≤ j) :
    decomp = d := by
  apply List.ext_getElem fill.length_eq
  intro k inDecomp inD
  have at_k := fill.getD_eq k
  rw [List.getD_eq_getElem _ _ inDecomp, List.getD_eq_getElem _ _ inD, if_pos (by omega)] at at_k
  exact at_k

/-- A bitset byte the decoder reads inside the bitset. -/
theorem getElem?_bitset {nonZeroBitset : List UInt8} {i : Nat} (inside : i / 8 < nonZeroBitset.length) :
    nonZeroBitset[i / 8]? = some (nonZeroBitset.getD (i / 8) 0) := by
  rw [List.getD_eq_getElem _ _ inside, List.getElem?_eq_getElem inside]

/-- The decoder's test of a bit is `bitSet`. -/
theorem bitMask_test (nonZeroBitset : List UInt8) (i : Nat) :
    (nonZeroBitset.getD (i / 8) 0 &&& bitMask i ≠ 0) ↔ bitSet nonZeroBitset i = true := by
  rw [bitSet, bne_iff_ne]

theorem getElem?_of_drop_eq_cons {data rest : List UInt8} {ptr : Nat} {x : UInt8}
    (dropped : data.drop ptr = x :: rest) : data[ptr]? = some x := by
  rw [← List.head?_drop, dropped, List.head?_cons]

theorem drop_succ_of_drop_eq_cons {data rest : List UInt8} {ptr : Nat} {x : UInt8}
    (dropped : data.drop ptr = x :: rest) : data.drop (ptr + 1) = rest := by
  rw [← List.drop_drop, dropped, List.drop_succ_cons, List.drop_zero]

/-- The loop over a bitset of `d`'s non-zero bytes, from position `j`, reads
the marked bytes from `ptr` on and puts each in its place. -/
theorem decodeLoop_spec {d data nonZeroBitset rest : List UInt8}
    (bits : ∀ k, bitSet nonZeroBitset k = (d.getD k 0 != 0)) :
    ∀ m j decomp ptr, j + m ≤ 8 * nonZeroBitset.length → FilledTo d decomp j →
      data.drop ptr = marked d j m ++ rest →
      ∃ decomp', decodeLoop data nonZeroBitset (List.range' j m) decomp ptr =
          .ok (.ok (decomp', ptr + (marked d j m).length)) ∧ FilledTo d decomp' (j + m) := by
  intro m
  induction m with
  | zero => intro j decomp ptr _ fill _; exact ⟨decomp, by simp [decodeLoop, marked], fill⟩
  | succ m ih =>
    intro j decomp ptr within fill dropped
    have inside : j / 8 < nonZeroBitset.length := by omega
    rw [List.range'_succ, decodeLoop, getElem?_bitset inside]
    simp only
    rw [marked_succ] at dropped ⊢
    by_cases zero : d.getD j 0 = 0
    · -- An unmarked position: the bit is clear and nothing is read.
      have clear : ¬ (nonZeroBitset.getD (j / 8) 0 &&& bitMask j ≠ 0) := by
        rw [bitMask_test, bits, zero]
        simp
      rw [if_neg clear, if_pos zero]
      rw [if_pos zero] at dropped
      obtain ⟨decomp', looped, filled⟩ := ih (j + 1) decomp ptr (by omega) (fill.skip zero) dropped
      exact ⟨decomp', looped, by rw [show j + (m + 1) = j + 1 + m by omega]; exact filled⟩
    · -- A marked position: its byte is next in the input and lands at `j`.
      have set : nonZeroBitset.getD (j / 8) 0 &&& bitMask j ≠ 0 := by
        rw [bitMask_test, bits]
        simpa using zero
      rw [if_neg zero] at dropped ⊢
      have present : ptr < data.length := by
        have := congrArg List.length dropped
        simp only [List.length_drop, List.cons_append, List.length_cons] at this
        omega
      have inD : j < d.length := by
        by_contra outside
        exact zero (List.getD_eq_default _ _ (by omega))
      have inDecomp : j < decomp.length := fill.length_eq ▸ inD
      rw [if_pos set, if_neg (by omega), if_neg (by omega), getElem?_of_drop_eq_cons dropped]
      simp only [zero, if_false]
      obtain ⟨decomp', looped, filled⟩ :=
        ih (j + 1) _ (ptr + 1) (by omega) (fill.set inDecomp) (drop_succ_of_drop_eq_cons dropped)
      refine ⟨decomp', ?_, by rw [show j + (m + 1) = j + 1 + m by omega]; exact filled⟩
      rw [looped, List.length_cons, Nat.add_assoc, Nat.add_comm 1]

/-! ### The recursive decoder -/

theorem bitsetDecodePartialBytes_zero (data : List UInt8) :
    bitsetDecodePartialBytes data 0 = .ok (.ok ([], 0)) := by
  rw [bitsetDecodePartialBytes, if_pos rfl]

theorem bitsetDecodePartialBytes_nil {target : Nat} (pos : target ≠ 0) (fits : target ≤ maxAlloc) :
    bitsetDecodePartialBytes [] target = .ok (.ok (List.replicate target 0, 0)) := by
  rw [bitsetDecodePartialBytes, if_neg pos, if_neg (Nat.not_lt.mpr fits)]

theorem bitsetDecodePartialBytes_one (b : UInt8) (rest : List UInt8) :
    bitsetDecodePartialBytes (b :: rest) 1 = .ok (.ok ([b], if b ≠ 0 then 1 else 0)) := by
  rw [bitsetDecodePartialBytes]
  by_cases zero : b = 0 <;> simp [zero, maxAlloc]

/-- Past `maxAlloc`, `make([]byte, target)` panics. -/
theorem bitsetDecodePartialBytes_of_maxAlloc_lt (data : List UInt8) {target : Nat} (big : maxAlloc < target) :
    bitsetDecodePartialBytes data target = .error .makeSliceLen := by
  rw [bitsetDecodePartialBytes, if_neg (by omega), if_pos big]

/-- From a target of two on, the bitset is decoded first, for a target an
eighth as long, and the loop places the bytes it marks. -/
theorem bitsetDecodePartialBytes_of_two_le {b : UInt8} {rest : List UInt8} {target : Nat} (long : 2 ≤ target)
    (fits : target ≤ maxAlloc) :
    bitsetDecodePartialBytes (b :: rest) target = (do
      match ← bitsetDecodePartialBytes (b :: rest) ((target + 7) / 8) with
      | .error err => return .error err
      | .ok (nonZeroBitset, ptr) =>
        decodeLoop (b :: rest) nonZeroBitset (List.range (8 * nonZeroBitset.length))
          (List.replicate target 0) ptr) := by
  rw [bitsetDecodePartialBytes, if_neg (by omega), if_neg (Nat.not_lt.mpr fits)]
  simp only [show target ≠ 1 by omega, if_false]

/-- Decoding an encoding for the length of what was encoded gives it back and
says how much input it took, whatever follows the encoding; an encoding of
zeros only is empty and is read from an input that ends there. -/
theorem bitsetDecodePartialBytes_bitsetEncodeBytes :
    ∀ n (d : List UInt8), d.length = n → n ≤ maxAlloc → ∀ rest, ((∃ b ∈ d, b ≠ 0) ∨ rest = []) →
      bitsetDecodePartialBytes (bitsetEncodeBytes d ++ rest) n =
        .ok (.ok (d, (bitsetEncodeBytes d).length)) := by
  intro n
  induction n using Nat.strong_induction_on with
  | _ n ih =>
  intro d length fits rest ends
  subst length
  by_cases long : 2 ≤ d.length
  case neg =>
    match d, long with
    | [], _ => rw [bitsetEncodeBytes_nil, List.length_nil, bitsetDecodePartialBytes_zero]
    | [b], _ =>
      rw [bitsetEncodeBytes_single, List.length_singleton]
      by_cases zero : b = 0
      · -- `[0]` encodes to nothing, and nothing may follow.
        have nothing : rest = [] := by simpa [zero] using ends
        rw [if_pos zero, nothing, zero, List.nil_append, bitsetDecodePartialBytes_nil one_ne_zero fits]
        rfl
      · rw [if_neg zero, List.singleton_append, bitsetDecodePartialBytes_one, if_pos zero]
        rfl
    | _ :: _ :: _, notLong => exact absurd (by simp) notLong
  case pos =>
    rw [bitsetEncodeBytes_of_two_le long]
    by_cases none : d.filter (· ≠ 0) = []
    · -- Zeros only: the encoding is empty, and the decoder fills zeros.
      have zeros : ∀ b ∈ d, b = 0 := by simpa [List.filter_eq_nil_iff] using none
      have nothing : rest = [] := by
        rcases ends with ⟨b, mem, nonzero⟩ | nothing
        · exact absurd (zeros b mem) nonzero
        · exact nothing
      have isZeros : List.replicate d.length 0 = d := (List.eq_replicate_iff.mpr ⟨rfl, zeros⟩).symm
      rw [if_pos none, nothing, List.nil_append, bitsetDecodePartialBytes_nil (by omega) fits, isZeros]
      rfl
    · rw [if_neg none]
      -- A non-zero byte sets a bit, so the bitset has a non-zero byte.
      obtain ⟨x, mem, nonzero⟩ : ∃ x ∈ d, x ≠ 0 := by
        simpa [List.filter_eq_nil_iff] using none
      obtain ⟨k, inD, at_k⟩ := List.getElem_of_mem mem
      have marks : bitSet (nonZeroBitset d) k = true := by
        rw [bitSet_nonZeroBitset, List.getD_eq_getElem _ _ inD, at_k]
        simpa using nonzero
      have bitsetLength : (nonZeroBitset d).length = (d.length + 7) / 8 := length_nonZeroBitset d
      have shorter := bitsetLength ▸ bitset_length_lt long
      have inner := ih _ shorter (nonZeroBitset d) rfl (by omega)
        (d.filter (· ≠ 0) ++ rest) (.inl (exists_ne_zero_of_bitSet marks))
      rw [bitsetLength] at inner
      -- The input is not empty: the non-zero bytes are in it.
      have nonempty : bitsetEncodeBytes (nonZeroBitset d) ++ (d.filter (· ≠ 0) ++ rest) ≠ [] := by
        intro empty
        simp only [List.append_eq_nil_iff] at empty
        exact none empty.2.1
      obtain ⟨y, ys, input⟩ := List.exists_cons_of_ne_nil nonempty
      rw [List.append_assoc, input, bitsetDecodePartialBytes_of_two_le long fits, ← input, inner, Lang.ok_bind]
      simp only
      rw [List.range_eq_range', bitsetLength]
      obtain ⟨decomp, looped, filled⟩ := decodeLoop_spec (bitSet_nonZeroBitset d) (8 * ((d.length + 7) / 8))
        0 _ _ (by rw [bitsetLength]; omega) (filledTo_replicate d)
        (by rw [List.drop_left, marked_of_le (by omega)] : List.drop (bitsetEncodeBytes (nonZeroBitset d)).length
          (bitsetEncodeBytes (nonZeroBitset d) ++ (d.filter (· ≠ 0) ++ rest)) = _ ++ rest)
      rw [looped, filled.eq (by omega), marked_of_le (by omega), List.length_append]

/-! ### The codec -/

/-- The compressed form is never longer than the input. -/
theorem length_CompressBytes_le (data : List UInt8) : (CompressBytes data).length ≤ data.length := by
  simp only [CompressBytes]
  split
  · next shorter => exact Nat.le_of_lt shorter
  · exact Nat.le_refl _

/-- Decompressing the compressed form for the input's length gives the input. -/
theorem DecompressBytes_CompressBytes {data : List UInt8} (fits : data.length ≤ maxAlloc) :
    DecompressBytes (CompressBytes data) data.length = .ok (.ok data) := by
  simp only [CompressBytes]
  split
  · next shorter =>
    have decoded := bitsetDecodePartialBytes_bitsetEncodeBytes data.length data rfl fits [] (.inr rfl)
    rw [List.append_nil] at decoded
    rw [DecompressBytes, if_neg (by omega), if_neg (by omega), Int.toNat_natCast, bitsetDecodeBytes,
      decoded, Lang.ok_bind]
    simp
  · rw [DecompressBytes, if_neg (by omega), if_pos rfl]

/-! ### Totality of the decoder -/

/-- The loop never panics while its positions lie inside the bitset, and
keeps the length of `decomp`. -/
theorem decodeLoop_total {data nonZeroBitset : List UInt8} :
    ∀ is decomp ptr, (∀ i ∈ is, i / 8 < nonZeroBitset.length) →
      ∃ r, decodeLoop data nonZeroBitset is decomp ptr = .ok r ∧
        ∀ out size, r = .ok (out, size) → out.length = decomp.length := by
  intro is
  induction is with
  | nil => intro decomp ptr _; exact ⟨_, rfl, fun _ _ done => by cases done; rfl⟩
  | cons i is ih =>
    intro decomp ptr inside
    have rest : ∀ i ∈ is, i / 8 < nonZeroBitset.length := fun j mem => inside j (List.mem_cons_of_mem _ mem)
    rw [decodeLoop, getElem?_bitset (inside i List.mem_cons_self)]
    simp only
    split
    · split
      · exact ⟨_, rfl, fun _ _ failed => by cases failed⟩
      · split
        · exact ⟨_, rfl, fun _ _ failed => by cases failed⟩
        · next present inDecomp =>
          -- The byte at `ptr` is there: the test above checked it.
          rw [List.getElem?_eq_getElem (by omega)]
          simp only
          split
          · exact ⟨_, rfl, fun _ _ failed => by cases failed⟩
          · obtain ⟨r, looped, kept⟩ := ih (decomp.set i _) (ptr + 1) rest
            exact ⟨r, looped, fun out size done => by rw [kept out size done, List.length_set]⟩
    · exact ih decomp ptr rest

/-- Up to `maxAlloc` the decoder never panics, and what it returns has the
target's length. -/
theorem bitsetDecodePartialBytes_total :
    ∀ target data, target ≤ maxAlloc → ∃ r, bitsetDecodePartialBytes data target = .ok r ∧
      ∀ out size, r = .ok (out, size) → out.length = target := by
  intro target
  induction target using Nat.strong_induction_on with
  | _ target ih =>
  intro data fits
  -- The cases of the code: no target, no input, a target of one, and the recursion.
  by_cases zero : target = 0
  · subst zero
    exact ⟨_, bitsetDecodePartialBytes_zero data, fun _ _ done => by cases done; rfl⟩
  match data with
  | [] => exact ⟨_, bitsetDecodePartialBytes_nil zero fits, fun _ _ done => by cases done; simp⟩
  | b :: rest =>
    by_cases one : target = 1
    · subst one
      exact ⟨_, bitsetDecodePartialBytes_one b rest, fun _ _ done => by cases done; rfl⟩
    · rw [bitsetDecodePartialBytes_of_two_le (by omega) fits]
      have shorter := bitset_length_lt (n := target) (by omega)
      obtain ⟨r, inner, _⟩ := ih _ shorter (b :: rest) (by omega)
      rw [inner, Lang.ok_bind]
      match r with
      | .error err => exact ⟨_, rfl, fun _ _ failed => by cases failed⟩
      | .ok (nonZeroBitset, ptr) =>
        obtain ⟨r', looped, kept⟩ := @decodeLoop_total (b :: rest) nonZeroBitset (List.range (8 * nonZeroBitset.length))
          (List.replicate target 0) ptr (fun i mem => by rw [List.mem_range] at mem; omega)
        exact ⟨r', looped, fun out size done => by rw [kept out size done, List.length_replicate]⟩

/-- `DecompressBytes` never panics for any input and any target up to
`maxAlloc`, and what it returns has the target's length. -/
theorem DecompressBytes_total (data : List UInt8) {target : Int} (fits : target ≤ maxAlloc) :
    ∃ r, DecompressBytes data target = .ok r ∧ ∀ out, r = .ok out → (out.length : Int) = target := by
  unfold DecompressBytes
  split
  · exact ⟨_, rfl, fun _ failed => by cases failed⟩
  · split
    · next same => exact ⟨_, rfl, fun out done => by cases done; exact same⟩
    · next longer same =>
      obtain ⟨r, decoded, sized⟩ := bitsetDecodePartialBytes_total target.toNat data (by omega)
      rw [bitsetDecodeBytes, decoded, Lang.ok_bind]
      match r with
      | .error err => exact ⟨_, rfl, fun _ failed => by cases failed⟩
      | .ok (out, size) =>
        simp only
        split
        · exact ⟨_, rfl, fun _ failed => by cases failed⟩
        · refine ⟨_, rfl, fun out' done => ?_⟩
          cases done
          rw [sized out size rfl]
          omega

theorem CompressBytes_DecompressBytes_lossless_total :
    (∀ data : List UInt8, data.length ≤ maxAlloc →
      DecompressBytes (CompressBytes data) data.length = .ok (.ok data) ∧
        (CompressBytes data).length ≤ data.length) ∧
    ∀ (data : List UInt8) (target : Int), target ≤ maxAlloc → ∃ r, DecompressBytes data target = .ok r ∧
      ∀ out, r = .ok out → (out.length : Int) = target :=
  ⟨fun _ fits => ⟨DecompressBytes_CompressBytes fits, length_CompressBytes_le _⟩,
    fun data _ fits => DecompressBytes_total data fits⟩

/-- A three-byte string, and an empty input decoded for a target of sixteen. -/
theorem CompressBytes_DecompressBytes_lossless_total_of_small :
    ([1, 0, 2] : List UInt8).length ≤ maxAlloc ∧ (16 : Int) ≤ maxAlloc ∧
      (DecompressBytes (CompressBytes [1, 0, 2]) 3 = .ok (.ok [1, 0, 2]) ∧
        (CompressBytes [1, 0, 2]).length ≤ 3) ∧
      ∃ r, DecompressBytes [] 16 = .ok r ∧ ∀ out, r = .ok out → (out.length : Int) = 16 :=
  have fits : (3 : Nat) ≤ maxAlloc := by unfold maxAlloc; omega
  have fits' : (16 : Int) ≤ maxAlloc := by unfold maxAlloc; omega
  ⟨fits, fits', CompressBytes_DecompressBytes_lossless_total.1 [1, 0, 2] fits,
    CompressBytes_DecompressBytes_lossless_total.2 [] 16 fits'⟩

/-- For a target past `maxAlloc` the decoder's `make` panics: decompressing
the empty input for `2^48 + 1` bytes does not return. -/
theorem DecompressBytes_panics_past_maxAlloc : DecompressBytes [] (maxAlloc + 1) = .error .makeSliceLen := by
  rw [DecompressBytes, List.length_nil, if_neg (by omega), if_neg (by omega), bitsetDecodeBytes,
    bitsetDecodePartialBytes_of_maxAlloc_lt [] (by omega)]
  rfl

end Ebakus.Common.Bitutil
