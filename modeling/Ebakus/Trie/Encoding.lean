/-
# Trie keys (`trie/encoding.go`)

The trie walks keys in the HEX encoding: one nibble a byte of the key, high
nibble first, and then the terminator 16, which marks that a value is stored
at the end of the path. A nibble is modelled as `Fin 17`, so that indexing the
seventeen children of a full node with it cannot fail. The COMPACT encoding
packs a hex key back into bytes with a flag nibble; the trie uses it when it
hashes a short node, and `compactToHex` unpacks it when a stored node is
decoded.

`Terminated` is the shape every key built by `keybytesToHex` has. The trie's
invariant rests on one fact about it: of two terminated keys neither is a
proper prefix of the other.

The decoders undo the encoders: `hexToKeybytes` gives back the bytes of every
key, and `compactToHex` every hex key whose only terminator is its last
nibble, which is what the trie's short nodes hold. The round trip rests on
the nibbles of a byte packing back into it, and on the flag nibble's two bits.
-/

import Mathlib
import Ebakus.Lang.Go

namespace Ebakus.Trie

open Ebakus.Lang

/-- A nibble of a hex key: `0` to `15`, or the terminator `16`. -/
abbrev Nibble := Fin 17

/-- `Nibble` is not empty: its literals and `Fin.ofNat 17` use this instance. -/
instance neZero_nibbleCard : NeZero (17 : Nat) :=
  ⟨by decide⟩

/-- `keybytesToHex`: the high and the low nibble of each byte, then the
terminator. -/
def keybytesToHex (str : List UInt8) : List Nibble :=
  str.flatMap (fun b => [Fin.ofNat 17 (b / 16).toNat, Fin.ofNat 17 (b % 16).toNat]) ++ [16]

/-- `hasTerm`: the key ends in the terminator. -/
def hasTerm (s : List Nibble) : Bool :=
  s.getLast? == some 16

/-- `decodeNibbles`: each pair of nibbles into one byte, high nibble first.
The code calls it on an even number of nibbles only. -/
def decodeNibbles : List Nibble → List UInt8
  | n₀ :: n₁ :: rest => (n₀.val.toUInt8 <<< 4 ||| n₁.val.toUInt8) :: decodeNibbles rest
  | _ => []

/-- `hexToCompact`: a flag byte with the terminator bit (`0x20`) and the odd
length bit (`0x10`), the first nibble in its low half when the length is odd,
then the remaining nibbles two to a byte. -/
def hexToCompact (hex : List Nibble) : List UInt8 :=
  let terminator : UInt8 := if hasTerm hex then 1 else 0
  let hex := if hasTerm hex then hex.dropLast else hex
  let flag : UInt8 := terminator <<< 5
  if hex.length % 2 = 1 then
    (flag ||| (1 : UInt8) <<< 4 ||| (hex.headD 0).val.toUInt8) :: decodeNibbles hex.tail
  else flag :: decodeNibbles hex

/-- `compactToHex`: the nibbles of the bytes, without the terminator unless
the flag nibble has its bit, and without the flag nibble and, for a key of
even length, the padding nibble after it. -/
def compactToHex (compact : List UInt8) : List Nibble :=
  if compact = [] then []
  else
    let base := keybytesToHex compact
    let base := if (base.headD 0).val < 2 then base.dropLast else base
    let chop := 2 - (base.headD 0).val % 2
    base.drop chop

/-- `hexToKeybytes`: the bytes of a key of even length, after its terminator. -/
def hexToKeybytes (hex : List Nibble) : Go (List UInt8) :=
  let hex := if hasTerm hex then hex.dropLast else hex
  if hex.length % 2 ≠ 0 then throw (.explicit "can't convert hex key of odd length")
  else pure (decodeNibbles hex)

/-- `prefixLen`: the length of the common prefix of `a` and `b`. -/
def prefixLen : List Nibble → List Nibble → Nat
  | x :: a, y :: b => if x = y then prefixLen a b + 1 else 0
  | _, _ => 0

/-! ### Common prefixes -/

theorem prefixLen_le_left (a b : List Nibble) : prefixLen a b ≤ a.length := by
  induction a generalizing b with
  | nil => simp [prefixLen]
  | cons x a ih =>
    cases b with
    | nil => simp [prefixLen]
    | cons y b =>
      simp only [prefixLen, List.length_cons]
      split
      · exact Nat.succ_le_succ (ih b)
      · omega

/-- The first `prefixLen a b` nibbles are common to both keys. -/
theorem take_prefixLen (a b : List Nibble) : a.take (prefixLen a b) = b.take (prefixLen a b) := by
  induction a generalizing b with
  | nil => simp [prefixLen]
  | cons x a ih =>
    cases b with
    | nil => simp [prefixLen]
    | cons y b =>
      simp only [prefixLen]
      split
      · next same => simp [same, ih b]
      · simp

/-- Where `prefixLen` stops inside both keys, the keys part: they are one
common prefix followed by two different nibbles. -/
theorem prefixLen_split {a b : List Nibble} (inA : prefixLen a b < a.length)
    (inB : prefixLen a b < b.length) :
    ∃ pre x a' y b', a = pre ++ x :: a' ∧ b = pre ++ y :: b' ∧ x ≠ y ∧ pre.length = prefixLen a b := by
  induction a generalizing b with
  | nil => simp at inA
  | cons x a ih =>
    cases b with
    | nil => simp at inB
    | cons y b =>
      by_cases same : x = y
      · subst same
        have step : prefixLen (x :: a) (x :: b) = prefixLen a b + 1 := by simp [prefixLen]
        rw [step, List.length_cons] at inA inB
        obtain ⟨pre, z, a', w, b', rfl, rfl, ne, len⟩ := @ih b (by omega) (by omega)
        exact ⟨x :: pre, z, a', w, b', rfl, rfl, ne, by simp [step, len]⟩
      · exact ⟨[], x, a, y, b, rfl, rfl, same, by simp [prefixLen, same]⟩

/-- `prefixLen a b` reaches the end of `b` exactly when `b` is a prefix of `a`. -/
theorem prefixLen_eq_length_iff (a b : List Nibble) : prefixLen a b = b.length ↔ b <+: a := by
  induction a generalizing b with
  | nil => cases b <;> simp [prefixLen]
  | cons x a ih =>
    cases b with
    | nil => simp [prefixLen]
    | cons y b =>
      simp only [prefixLen, List.length_cons, List.cons_prefix_cons]
      split
      · next same => simp [same, ih b]
      · next differ => simp [Ne.symm differ]

/-- Two keys that part after a common prefix have that prefix's length in common. -/
theorem prefixLen_append_cons (pre : List Nibble) {x y : Nibble} (differ : x ≠ y) (a b : List Nibble) :
    prefixLen (pre ++ x :: a) (pre ++ y :: b) = pre.length := by
  induction pre with
  | nil => simp [prefixLen, differ]
  | cons z pre ih => simp [prefixLen, ih]

theorem prefixLen_comm (a b : List Nibble) : prefixLen a b = prefixLen b a := by
  induction a generalizing b with
  | nil => cases b <;> simp [prefixLen]
  | cons x a ih =>
    cases b with
    | nil => simp [prefixLen]
    | cons y b =>
      simp only [prefixLen, ih b]
      by_cases same : x = y
      · simp [same]
      · simp [same, Ne.symm same]

/-! ### Terminated keys -/

/-- A hex key as `keybytesToHex` builds them: nibbles below 16, and the
terminator last. -/
inductive Terminated : List Nibble → Prop
  | term : Terminated [16]
  | cons {x : Nibble} {rest : List Nibble} : x ≠ 16 → Terminated rest → Terminated (x :: rest)

namespace Terminated

theorem ne_nil {k : List Nibble} (ends : Terminated k) : k ≠ [] := by
  cases ends <;> simp

theorem mem {k : List Nibble} (ends : Terminated k) : 16 ∈ k := by
  induction ends with
  | term => simp
  | cons _ _ ih => exact List.mem_cons_of_mem _ ih

theorem tail {x : Nibble} {rest : List Nibble} (ends : Terminated (x :: rest)) (plain : x ≠ 16) :
    Terminated rest := by
  cases ends with
  | term => exact absurd rfl plain
  | cons _ rest => exact rest

theorem cons_inv {x : Nibble} {rest : List Nibble} (ends : Terminated (x :: rest)) (more : rest ≠ []) :
    x ≠ 16 ∧ Terminated rest := by
  cases ends with
  | term => exact absurd rfl more
  | cons plain rest => exact ⟨plain, rest⟩

theorem eq_nil_of_cons_term {rest : List Nibble} (ends : Terminated (16 :: rest)) : rest = [] := by
  cases ends with
  | term => rfl
  | cons plain _ => exact absurd rfl plain

/-- A key with no terminator in front of a terminated one is terminated. -/
theorem append {s r : List Nibble} (plain : 16 ∉ s) (ends : Terminated r) : Terminated (s ++ r) := by
  induction s with
  | nil => exact ends
  | cons x s ih =>
    rw [List.mem_cons, not_or] at plain
    exact .cons (Ne.symm plain.1) (ih plain.2)

/-- What follows a non-empty part cut off a terminated key is terminated, and
the part cut off holds no terminator. -/
theorem of_append {s r : List Nibble} (ends : Terminated (s ++ r)) (more : r ≠ []) :
    16 ∉ s ∧ Terminated r := by
  induction s with
  | nil => exact ⟨List.not_mem_nil, ends⟩
  | cons x s ih =>
    rw [List.cons_append] at ends
    obtain ⟨plain, rest⟩ := cons_inv ends (by simp [more])
    obtain ⟨notIn, ends⟩ := ih rest
    exact ⟨by simp [Ne.symm plain, notIn], ends⟩

/-- Of two terminated keys neither is a proper prefix of the other. -/
theorem eq_of_prefix {a b : List Nibble} (termA : Terminated a) (termB : Terminated b) (pre : a <+: b) :
    a = b := by
  induction termA generalizing b with
  | term =>
    cases termB with
    | term => rfl
    | cons plain _ => exact absurd (List.cons_prefix_cons.mp pre).1.symm plain
  | @cons x rest plain _ ih =>
    cases termB with
    | term => exact absurd (List.cons_prefix_cons.mp pre).1 plain
    | cons _ termB =>
      obtain ⟨rfl, below⟩ := List.cons_prefix_cons.mp pre
      rw [ih termB below]

end Terminated

/-! ### Keys of the trie's API -/

theorem terminated_keybytesToHex (str : List UInt8) : Terminated (keybytesToHex str) := by
  unfold keybytesToHex
  refine Terminated.append ?_ .term
  simp only [List.mem_flatMap, List.mem_cons, List.not_mem_nil, or_false, not_exists, not_and]
  intro b _
  have fits := UInt8.toNat_lt b
  rintro (eq | eq) <;>
    simp only [Fin.ext_iff, Fin.val_ofNat, UInt8.toNat_div, UInt8.toNat_mod, UInt8.reduceToNat] at eq <;> omega

/-- `keybytesToHex` is injective: the nibbles give back the bytes. -/
theorem keybytesToHex_injective : Function.Injective keybytesToHex := by
  intro s t same
  simp only [keybytesToHex, List.append_cancel_right_eq] at same
  induction s generalizing t with
  | nil => cases t <;> simp_all
  | cons b s ih =>
    cases t with
    | nil => simp at same
    | cons c t =>
      simp only [List.flatMap_cons, List.cons_append, List.nil_append, List.cons.injEq] at same
      obtain ⟨high, low, rest⟩ := same
      have hb := UInt8.toNat_lt b
      have hc := UInt8.toNat_lt c
      simp only [Fin.ext_iff, Fin.val_ofNat, UInt8.toNat_div, UInt8.toNat_mod, UInt8.reduceToNat] at high low
      have byte : b = c := by
        rw [← UInt8.toNat_inj]
        omega
      rw [byte, ih rest]

/-! ### Back from hex and compact keys -/

/-- The two nibbles of a byte, as `keybytesToHex` writes them. -/
def nibblesOf (b : UInt8) : List Nibble :=
  [Fin.ofNat 17 (b / 16).toNat, Fin.ofNat 17 (b % 16).toNat]

theorem keybytesToHex_eq (str : List UInt8) : keybytesToHex str = str.flatMap nibblesOf ++ [16] :=
  rfl

/-- `compactToHex` of a nonempty key, by the two bits of its flag nibble. -/
theorem compactToHex_cons (x : UInt8) (rest : List UInt8) :
    compactToHex (x :: rest) =
      (if (Fin.ofNat 17 (x / 16).toNat).val % 2 = 1 then [Fin.ofNat 17 (x % 16).toNat] else []) ++
        rest.flatMap nibblesOf ++ (if (Fin.ofNat 17 (x / 16).toNat).val < 2 then [] else [16]) := by
  have base : keybytesToHex (x :: rest) =
      (Fin.ofNat 17 (x / 16).toNat :: Fin.ofNat 17 (x % 16).toNat :: rest.flatMap nibblesOf) ++ [16] := rfl
  rw [compactToHex, if_neg (List.cons_ne_nil x rest), base]
  dsimp only
  -- the terminator goes unless the flag nibble has its bit
  split
  · next term =>
    rw [List.cons_append, List.headD_cons] at term
    rw [List.dropLast_concat, List.headD_cons, if_pos term, List.append_nil]
    by_cases odd : (Fin.ofNat 17 (x / 16).toNat).val % 2 = 1
    · rw [if_pos odd, show 2 - (Fin.ofNat 17 (x / 16).toNat).val % 2 = 1 by omega]
      rfl
    · rw [if_neg odd, show 2 - (Fin.ofNat 17 (x / 16).toNat).val % 2 = 2 by omega]
      rfl
  · next term =>
    rw [List.cons_append, List.headD_cons] at term
    rw [List.cons_append, List.cons_append, List.headD_cons, if_neg term]
    by_cases odd : (Fin.ofNat 17 (x / 16).toNat).val % 2 = 1
    · rw [if_pos odd, show 2 - (Fin.ofNat 17 (x / 16).toNat).val % 2 = 1 by omega]
      rfl
    · rw [if_neg odd, show 2 - (Fin.ofNat 17 (x / 16).toNat).val % 2 = 2 by omega]
      rfl

/-- A byte is its two nibbles put back together. -/
theorem pack_nibblesOf (b : UInt8) :
    (Fin.ofNat 17 (b / 16).toNat).val.toUInt8 <<< 4 ||| (Fin.ofNat 17 (b % 16).toNat).val.toUInt8 = b := by
  have hb := b.toNat_lt
  apply UInt8.toNat_inj.mp
  have hi : (b / 16).toNat % 17 = b.toNat / 16 := by
    rw [UInt8.toNat_div]
    simp only [UInt8.reduceToNat]
    omega
  have lo : (b % 16).toNat % 17 = b.toNat % 16 := by
    rw [UInt8.toNat_mod]
    simp only [UInt8.reduceToNat]
    omega
  simp only [UInt8.toNat_or, UInt8.toNat_shiftLeft, Fin.val_ofNat, hi, lo, Nat.toUInt8_eq,
    UInt8.toNat_ofNat_of_lt' (by omega : b.toNat / 16 < 256),
    UInt8.toNat_ofNat_of_lt' (by omega : b.toNat % 16 < 256)]
  -- the high nibble lands above the low one, so the `|` adds them
  have shifted : (b.toNat / 16) <<< ((4 : UInt8).toNat % 8) % 2 ^ 8 = (b.toNat / 16) <<< 4 := by
    have four : (4 : UInt8).toNat % 8 = 4 := rfl
    rw [four, Nat.shiftLeft_eq]
    omega
  rw [shifted, ← Nat.shiftLeft_add_eq_or_of_lt (by omega : b.toNat % 16 < 2 ^ 4), Nat.shiftLeft_eq]
  omega

/-- Two nibbles below 16 are the nibbles of the byte they make. -/
theorem nibblesOf_pack {a b : Nibble} (ha : a ≠ 16) (hb : b ≠ 16) :
    nibblesOf (a.val.toUInt8 <<< 4 ||| b.val.toUInt8) = [a, b] := by
  revert a b
  decide

theorem length_flatMap_nibblesOf (str : List UInt8) : (str.flatMap nibblesOf).length = 2 * str.length := by
  induction str with
  | nil => rfl
  | cons b str ih =>
    rw [List.flatMap_cons, List.length_append, ih, List.length_cons]
    simp only [nibblesOf, List.length_cons, List.length_nil]
    omega

theorem decodeNibbles_flatMap (str : List UInt8) : decodeNibbles (str.flatMap nibblesOf) = str := by
  induction str with
  | nil => rfl
  | cons b str ih =>
    rw [List.flatMap_cons, nibblesOf, List.cons_append, List.cons_append, List.nil_append, decodeNibbles, ih,
      pack_nibblesOf]

/-- Nibbles below 16, an even number of them, are the nibbles of the bytes they make. -/
theorem flatMap_decodeNibbles : ∀ {ns : List Nibble}, ns.length % 2 = 0 → 16 ∉ ns →
    (decodeNibbles ns).flatMap nibblesOf = ns
  | [], _, _ => rfl
  | [_], even, _ => absurd even (by simp)
  | n₀ :: n₁ :: rest, even, plain => by
    simp only [List.mem_cons, not_or] at plain
    obtain ⟨first, second, plain⟩ := plain
    have restEven : rest.length % 2 = 0 := by
      simp only [List.length_cons] at even
      omega
    rw [decodeNibbles, List.flatMap_cons, nibblesOf_pack (Ne.symm first) (Ne.symm second),
      flatMap_decodeNibbles restEven plain]
    rfl

/-- The flag byte of `hexToCompact`: its high nibble holds the terminator bit
and the odd bit, and its low nibble the first nibble of an odd key. -/
theorem flag_nibbles (t : Bool) :
    (Fin.ofNat 17 (((if t then 1 else 0 : UInt8) <<< 5) / 16).toNat).val = 2 * (if t then 1 else 0) ∧
      ∀ h : Nibble, h ≠ 16 →
        (Fin.ofNat 17 ((((if t then 1 else 0 : UInt8) <<< 5) ||| (1 : UInt8) <<< 4 ||| h.val.toUInt8) / 16).toNat).val =
            2 * (if t then 1 else 0) + 1 ∧
          Fin.ofNat 17 ((((if t then 1 else 0 : UInt8) <<< 5) ||| (1 : UInt8) <<< 4 ||| h.val.toUInt8) % 16).toNat = h := by
  cases t <;> decide

theorem hasTerm_keybytesToHex (str : List UInt8) : hasTerm (keybytesToHex str) = true := by
  rw [hasTerm, keybytesToHex_eq, List.getLast?_concat]
  rfl

/-- `hexToKeybytes` gives back the key that `keybytesToHex` spread into nibbles. -/
theorem hexToKeybytes_keybytesToHex (str : List UInt8) : hexToKeybytes (keybytesToHex str) = .ok str := by
  have even : (str.flatMap nibblesOf).length % 2 = 0 := by
    rw [length_flatMap_nibblesOf]
    omega
  rw [hexToKeybytes, if_pos (hasTerm_keybytesToHex str), keybytesToHex_eq, List.dropLast_concat,
    if_neg (not_not.mpr even), decodeNibbles_flatMap]
  rfl

/-- A compact key of nibbles below 16, with the flag for terminator `t`,
decodes to its nibbles and the terminator when `t` says so. -/
theorem compactToHex_pack (t : Bool) {body : List Nibble} (plain : 16 ∉ body) :
    compactToHex (if body.length % 2 = 1 then
        (((if t then 1 else 0 : UInt8) <<< 5) ||| (1 : UInt8) <<< 4 ||| (body.headD 0).val.toUInt8) ::
          decodeNibbles body.tail
      else ((if t then 1 else 0 : UInt8) <<< 5) :: decodeNibbles body) =
      body ++ if t then [16] else [] := by
  obtain ⟨even, odd⟩ := flag_nibbles t
  -- the terminator stays exactly when `t` set its bit
  have kept : ∀ n, n = 2 * (if t then 1 else 0) ∨ n = 2 * (if t then 1 else 0) + 1 →
      ((if n < 2 then [] else [16]) : List Nibble) = if t then [16] else [] := by
    intro n shape
    cases t
    · have small : n < 2 := by simp at shape; omega
      simp [small]
    · have large : ¬n < 2 := by simp at shape; omega
      simp [large]
  split
  · next oddLength =>
    obtain ⟨h, tail, rfl⟩ : ∃ h tail, body = h :: tail := List.exists_cons_of_ne_nil (by rintro rfl; simp at oddLength)
    simp only [List.mem_cons, not_or] at plain
    obtain ⟨high, low⟩ := odd h (Ne.symm plain.1)
    have tailEven : tail.length % 2 = 0 := by
      simp only [List.length_cons] at oddLength
      omega
    rw [compactToHex_cons, List.headD_cons, low, high, if_pos (by omega), kept _ (.inr rfl), List.tail_cons,
      flatMap_decodeNibbles tailEven plain.2]
    rfl
  · next evenLength =>
    rw [compactToHex_cons, even, if_neg (by omega), kept _ (.inl rfl), flatMap_decodeNibbles (by omega) plain,
      List.nil_append]

/-- `compactToHex` gives back every key `hexToCompact` packs, as long as the
terminator comes last if at all: the keys of the trie's short nodes. -/
theorem compactToHex_hexToCompact {hex : List Nibble} (clean : 16 ∉ hex.dropLast) :
    compactToHex (hexToCompact hex) = hex := by
  -- the nibbles before the terminator, and the terminator if there is one
  have split : 16 ∉ (if hasTerm hex then hex.dropLast else hex) ∧
      hex = (if hasTerm hex then hex.dropLast else hex) ++ if hasTerm hex then [16] else [] := by
    cases term : hasTerm hex
    · simp only [Bool.false_eq_true, if_false, List.append_nil, and_true]
      intro mem
      rcases List.eq_nil_or_concat hex with rfl | ⟨front, last, rfl⟩
      · exact List.not_mem_nil mem
      · rw [List.concat_eq_append] at term clean mem
        rw [hasTerm, List.getLast?_concat] at term
        rw [List.dropLast_concat] at clean
        rcases List.mem_append.mp mem with inFront | isLast
        · exact clean inFront
        · rw [List.mem_singleton.mp isLast] at term
          exact absurd term (by simp)
    · exact ⟨clean, (List.dropLast_append_getLast? 16 (beq_iff_eq.mp term)).symm⟩
  exact (compactToHex_pack (hasTerm hex) split.1).trans split.2.symm

/-- An odd leaf key packs into two bytes and unpacks to itself. -/
theorem compactToHex_hexToCompact_of_odd_leaf :
    16 ∉ ([1, 2, 3, 16] : List Nibble).dropLast ∧ compactToHex (hexToCompact [1, 2, 3, 16]) = [1, 2, 3, 16] :=
  ⟨by decide, compactToHex_hexToCompact (by decide)⟩

end Ebakus.Trie
