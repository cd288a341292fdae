/-
# Big integer helpers (`common/math/big.go`)

The EVM keeps its words in `big.Int`s, which the model takes as `Int`. The
operations of `math/big` the code uses are then those of `Int`: `Div` and
`Mod` are Euclidean (Lean's `/` and `%`), `Rsh` is the floor of a division by
a power of two, and `And`, `Or`, `Xor`, `Not` act on two's complement.
`Bits` is the list of machine words of the absolute value, least significant
first; the model takes a 64-bit platform, where a word has 64 bits.

`U256` keeps the low 256 bits with an `And`: on two's complement that is the
residue mod `2^256`, for a negative integer too. `Exp` squares and multiplies
along the bits of the exponent, reducing after each product, which gives the
power mod `2^256`. `Byte` picks a byte counting from the most significant end
of a 32-byte word.
-/

import Mathlib.Data.Int.Bitwise
import Mathlib.Data.Nat.Digits.Lemmas

namespace Ebakus.Common.Math

/-- `tt255`. -/
def tt255 : Int := 2 ^ 255

/-- `tt256`. -/
def tt256 : Int := 2 ^ 256

/-- `tt256m1`. -/
def tt256m1 : Int := tt256 - 1

/-- `U256`: `x.And(x, tt256m1)`. -/
def U256 (x : Int) : Int :=
  Int.land x tt256m1

/-- `S256`: a word read as two's complement. -/
def S256 (x : Int) : Int :=
  if x < tt255 then x else x - tt256

/-- `wordBits`, on a 64-bit platform. -/
def wordBits : Nat := 64

/-- `wordBytes`. -/
def wordBytes : Nat := wordBits / 8

/-- `x.Bits()`: the words of `|x|`, least significant first. -/
def Bits (x : Int) : List Nat :=
  Nat.digits (2 ^ wordBits) x.natAbs

/-- `bigEndianByteAt`: byte `n` counting from the least significant end. -/
def bigEndianByteAt (bigint : Int) (n : Nat) : UInt8 :=
  let words := Bits bigint
  let i := n / wordBytes
  if h : i < words.length then
    let word := words[i]
    let shift := 8 * (n % wordBytes)
    UInt8.ofNat (word >>> shift)
  else 0

/-- `Byte`: byte `n` counting from the most significant end of `padlength` bytes. -/
def Byte (bigint : Int) (padlength n : Nat) : UInt8 :=
  if n ≥ padlength then 0 else bigEndianByteAt bigint (padlength - 1 - n)

/-- The loop of `Exp` over the bits of one word of the exponent. -/
def expWordLoop : Nat → Nat → Int → Int → Int × Int
  | 0, _, result, base => (result, base)
  | i + 1, word, result, base =>
    let result := if word &&& 1 = 1 then U256 (result * base) else result
    expWordLoop i (word >>> 1) result (U256 (base * base))

/-- The loop of `Exp` over the words of the exponent. -/
def expLoop : List Nat → Int → Int → Int × Int
  | [], result, base => (result, base)
  | word :: words, result, base =>
    let (result, base) := expWordLoop wordBits word result base
    expLoop words result base

/-- `Exp`: exponentiation by squaring, truncated to 256 bits. -/
def Exp (base exponent : Int) : Int :=
  (expLoop (Bits exponent) 1 base).1

/-! ### `U256` -/

/-- The low `k` bits of the complement of `m`. -/
theorem ldiff_two_pow_sub_one (k m : Nat) : Nat.ldiff (2 ^ k - 1) m = 2 ^ k - (m % 2 ^ k + 1) := by
  apply Nat.eq_of_testBit_eq
  intro i
  rw [Nat.testBit_ldiff, Nat.testBit_two_pow_sub_one, Nat.testBit_two_pow_sub_succ (Nat.mod_lt _ (by positivity)),
    Nat.testBit_mod_two_pow]
  cases decide (i < k) <;> rfl

/-- `U256` is the residue mod `2^256`, negative integers included. -/
theorem U256_eq_emod (x : Int) : U256 x = x % 2 ^ 256 := by
  have mask : tt256m1 = ((2 ^ 256 - 1 : Nat) : Int) := by
    rw [tt256m1, tt256]
    norm_num
  rw [U256, mask]
  cases x with
  | ofNat m =>
    change ((m &&& (2 ^ 256 - 1) : Nat) : Int) = _
    rw [Nat.and_two_pow_sub_one_eq_mod]
    norm_cast
  | negSucc m =>
    change ((Nat.ldiff (2 ^ 256 - 1) m : Nat) : Int) = _
    rw [ldiff_two_pow_sub_one, Int.negSucc_emod _ (by positivity)]
    have below : m % 2 ^ 256 < 2 ^ 256 := Nat.mod_lt _ (by positivity)
    push_cast [Nat.sub_add_eq]
    omega

/-- On a natural number `U256` is the remainder mod `2^256`. -/
theorem U256_natCast (n : Nat) : U256 n = ((n % 2 ^ 256 : Nat) : Int) := by
  rw [U256_eq_emod]
  norm_cast

/-- A word is its own `U256`. -/
theorem U256_of_lt {n : Nat} (word : n < 2 ^ 256) : U256 n = n := by
  rw [U256_natCast, Nat.mod_eq_of_lt word]

/-! ### `Byte` -/

/-- Byte `n` of a natural number, from the least significant end. -/
theorem toNat_bigEndianByteAt (x n : Nat) : (bigEndianByteAt x n).toNat = x / 2 ^ (8 * n) % 256 := by
  have base : 2 ≤ 2 ^ 64 := by norm_num
  have split : 8 * n = 64 * (n / 8) + 8 * (n % 8) := by omega
  unfold bigEndianByteAt
  dsimp only
  split
  · next inside =>
    rw [UInt8.toNat_ofNat', ← List.getD_eq_getElem _ 0 inside]
    simp only [Bits, Int.natAbs_natCast, wordBytes, wordBits, show (64 : Nat) / 8 = 8 from rfl]
    rw [Nat.getD_digits _ _ base, Nat.shiftRight_eq_div_pow, split, Nat.pow_add, ← Nat.div_div_eq_div_mul,
      ← Nat.pow_mul]
    -- the byte lies inside its 64-bit word
    have inWord : 2 ^ 64 = 2 ^ (8 * (n % 8)) * (2 ^ 8 * 2 ^ (56 - 8 * (n % 8))) := by
      rw [← Nat.pow_add, ← Nat.pow_add]
      congr 1
      omega
    rw [inWord, Nat.mod_mul_right_div_self, Nat.mod_mul_right_mod]
    rfl
  · next outside =>
    simp only [Bits, Int.natAbs_natCast, wordBytes, wordBits, show (64 : Nat) / 8 = 8 from rfl] at outside
    -- past the last word the number has no bits
    have small : x < 2 ^ (64 * (n / 8)) := by
      calc x < (2 ^ 64) ^ (Nat.digits (2 ^ 64) x).length := Nat.lt_base_pow_length_digits base
        _ ≤ (2 ^ 64) ^ (n / 8) := Nat.pow_le_pow_right (by positivity) (Nat.le_of_not_lt outside)
        _ = 2 ^ (64 * (n / 8)) := by rw [← Nat.pow_mul]
    have none : x / 2 ^ (8 * n) = 0 :=
      Nat.div_eq_of_lt (lt_of_lt_of_le small (Nat.pow_le_pow_right (by decide) (by omega)))
    rw [none]
    rfl

/-- `Byte` of a 32-byte word: byte `n` from the most significant end. -/
theorem toNat_Byte (x n : Nat) :
    (Byte x 32 n).toNat = if n < 32 then x / 2 ^ (8 * (31 - n)) % 256 else 0 := by
  unfold Byte
  split
  · next past => rw [if_neg (by omega)]; rfl
  · next inside => rw [if_pos (by omega), toNat_bigEndianByteAt, show 32 - 1 - n = 31 - n by omega]

/-! ### `Exp` -/

/-- The product `U256` reduces, on natural numbers. -/
theorem U256_mul (a b : Nat) : U256 ((a : Int) * b) = ((a * b % 2 ^ 256 : Nat) : Int) := by
  rw [← U256_natCast]
  norm_cast

/-- The loop over one word multiplies the result by the base to the power of
the word's low `k` bits, and squares the base `k` times, all mod `2^256`. -/
theorem expWordLoop_eq (k : Nat) : ∀ (word r b : Nat), r < 2 ^ 256 → b < 2 ^ 256 →
    expWordLoop k word r b =
      ((((r * b ^ (word % 2 ^ k)) % 2 ^ 256 : Nat) : Int), ((b ^ (2 ^ k) % 2 ^ 256 : Nat) : Int)) := by
  induction k with
  | zero =>
    intro word r b reducedR reducedB
    rw [expWordLoop.eq_1]
    simp only [pow_zero, Nat.mod_one, mul_one, pow_one, Nat.mod_eq_of_lt reducedR, Nat.mod_eq_of_lt reducedB]
  | succ k ih =>
    intro word r b reducedR reducedB
    -- the result after this bit, as a natural number below `2^256`
    let r' := if word % 2 = 1 then r * b % 2 ^ 256 else r
    have stepped : (if word &&& 1 = 1 then U256 ((r : Int) * b) else (r : Int)) = (r' : Int) := by
      rw [Nat.and_one_is_mod, U256_mul]
      by_cases odd : word % 2 = 1 <;> simp [r', odd]
    have reducedR' : r' < 2 ^ 256 := by
      by_cases odd : word % 2 = 1
      · simp only [r', odd, if_true]
        exact Nat.mod_lt _ (by positivity)
      · simpa [r', odd] using reducedR
    have firstBit : r' ≡ r * b ^ (word % 2) [MOD 2 ^ 256] := by
      by_cases odd : word % 2 = 1
      · simp only [r', odd, if_true, pow_one]
        exact Nat.mod_modEq _ _
      · have even : word % 2 = 0 := by omega
        simp only [r', if_neg odd, even, pow_zero, mul_one]
        rfl
    have lowBits : word % 2 ^ (k + 1) = word % 2 + 2 * (word / 2 % 2 ^ k) := by
      rw [Nat.pow_succ', Nat.mod_mul]
    rw [expWordLoop.eq_2, stepped, U256_mul, Nat.shiftRight_one,
      ih (word / 2) r' (b * b % 2 ^ 256) reducedR' (Nat.mod_lt _ (by positivity))]
    congr 2
    · -- the result: the bits above the first come from the squared base
      calc r' * (b * b % 2 ^ 256) ^ (word / 2 % 2 ^ k) % 2 ^ 256
          = r * b ^ (word % 2) * (b * b) ^ (word / 2 % 2 ^ k) % 2 ^ 256 :=
            firstBit.mul ((Nat.mod_modEq _ _).pow _)
        _ = r * b ^ (word % 2 ^ (k + 1)) % 2 ^ 256 := by
            rw [lowBits, pow_add, pow_mul, sq, mul_assoc]
    · -- the base: squared once more
      calc (b * b % 2 ^ 256) ^ 2 ^ k % 2 ^ 256 = (b * b) ^ 2 ^ k % 2 ^ 256 := (Nat.mod_modEq _ _).pow _
        _ = b ^ 2 ^ (k + 1) % 2 ^ 256 := by rw [← sq, ← pow_mul, ← pow_succ']

/-- The loop over the words of the exponent. -/
theorem expLoop_eq (words : List Nat) (digits : ∀ w ∈ words, w < 2 ^ wordBits) : ∀ (r b : Nat),
    r < 2 ^ 256 → b < 2 ^ 256 →
    expLoop words r b = ((((r * b ^ Nat.ofDigits (2 ^ wordBits) words) % 2 ^ 256 : Nat) : Int),
      ((b ^ (2 ^ (wordBits * words.length)) % 2 ^ 256 : Nat) : Int)) := by
  induction words with
  | nil =>
    intro r b reducedR reducedB
    rw [expLoop.eq_1]
    simp only [Nat.ofDigits_nil, pow_zero, mul_one, List.length_nil, Nat.mul_zero, pow_one,
      Nat.mod_eq_of_lt reducedR, Nat.mod_eq_of_lt reducedB]
  | cons w words ih =>
    intro r b reducedR reducedB
    have word : w < 2 ^ wordBits := digits w List.mem_cons_self
    have rest : ∀ v ∈ words, v < 2 ^ wordBits := fun v mem => digits v (List.mem_cons_of_mem _ mem)
    rw [expLoop.eq_2, expWordLoop_eq _ _ _ _ reducedR reducedB, Nat.mod_eq_of_lt word]
    simp only
    rw [ih rest _ _ (Nat.mod_lt _ (by positivity)) (Nat.mod_lt _ (by positivity)), Prod.mk.injEq]
    constructor
    · refine congrArg Nat.cast ?_
      calc r * b ^ w % 2 ^ 256 * (b ^ 2 ^ wordBits % 2 ^ 256) ^ Nat.ofDigits (2 ^ wordBits) words % 2 ^ 256
          = r * b ^ w * (b ^ 2 ^ wordBits) ^ Nat.ofDigits (2 ^ wordBits) words % 2 ^ 256 :=
            (Nat.mod_modEq _ _).mul ((Nat.mod_modEq _ _).pow _)
        _ = r * b ^ Nat.ofDigits (2 ^ wordBits) (w :: words) % 2 ^ 256 := by
            rw [Nat.ofDigits_cons, pow_add, pow_mul, mul_assoc]
    · refine congrArg Nat.cast ?_
      calc (b ^ 2 ^ wordBits % 2 ^ 256) ^ 2 ^ (wordBits * words.length) % 2 ^ 256
          = (b ^ 2 ^ wordBits) ^ 2 ^ (wordBits * words.length) % 2 ^ 256 := (Nat.mod_modEq _ _).pow _
        _ = b ^ 2 ^ (wordBits * (w :: words).length) % 2 ^ 256 := by
            rw [← pow_mul, ← pow_add, List.length_cons, Nat.mul_succ, Nat.add_comm]

/-- `Exp` of a word is the power mod `2^256`. -/
theorem Exp_eq {base : Nat} (word : base < 2 ^ 256) (exponent : Nat) :
    Exp base exponent = ((base ^ exponent % 2 ^ 256 : Nat) : Int) := by
  have digits : ∀ w ∈ Bits exponent, w < 2 ^ wordBits := fun w mem =>
    Nat.digits_lt_base (by simp [wordBits]) mem
  rw [Exp, show ((1 : Int)) = ((1 : Nat) : Int) from rfl,
    expLoop_eq _ digits 1 base (by norm_num) word, Bits, Int.natAbs_natCast, Nat.ofDigits_digits, one_mul]

end Ebakus.Common.Math
