/-
# Arithmetic, comparison, bitwise and shift instructions (`core/vm/instructions.go`)

The op functions of the twenty-five word instructions, over a stack of
`big.Int`s. The model lists the stack from its top. An op pops its operands
and either pushes its result or writes it into the integer `peek` returned,
which stays on the stack; the model does the latter with `setTop`. The
integer pool only recycles integers that have left the stack, so the model
keeps values and leaves the pool out.

`ArithOp.result` is the Yellow Paper's definition of each instruction on
words, the naturals below `2^256`, with the signed instructions reading a word
as two's complement. Each op function, run on words, pops its operands and
pushes exactly that result, which is again a word; the rest of the stack is
untouched. The code reaches the results by other roads: `big.Int` arithmetic
reduced by `U256`, absolute values and negation for the signed division,
early returns for large shifts, a mask for `SIGNEXTEND`, and squaring for
`EXP`.
-/

import Ebakus.Common.Math
import Ebakus.Lang.Go

namespace Ebakus.Core.Vm

open Ebakus.Lang Ebakus.Common.Math

/-! ### The stack -/

/-- `Stack`, from its top. -/
abbrev Stack := List Int

/-- `stack.pop()`: on an empty stack the index panics. -/
def Stack.pop : Stack → Go (Int × Stack)
  | [] => .error .indexOutOfRange
  | x :: rest => .ok (x, rest)

/-- `stack.peek()`. -/
def Stack.peek : Stack → Go Int
  | [] => .error .indexOutOfRange
  | x :: _ => .ok x

/-- A write into the integer `peek` returned. -/
def Stack.setTop : Stack → Int → Stack
  | [], _ => []
  | _ :: rest, d => d :: rest

/-- `stack.push(d)`. -/
def Stack.push (stack : Stack) (d : Int) : Stack :=
  d :: stack

/-! ### The op functions -/

/-- `opAdd`. -/
def opAdd (stack : Stack) : Go Stack := do
  let (x, stack) ← stack.pop
  let y ← stack.peek
  return stack.setTop (U256 (x + y))

/-- `opSub`. -/
def opSub (stack : Stack) : Go Stack := do
  let (x, stack) ← stack.pop
  let y ← stack.peek
  return stack.setTop (U256 (x - y))

/-- `opMul`. -/
def opMul (stack : Stack) : Go Stack := do
  let (x, stack) ← stack.pop
  let (y, stack) ← stack.pop
  return stack.push (U256 (x * y))

/-- `opDiv`. -/
def opDiv (stack : Stack) : Go Stack := do
  let (x, stack) ← stack.pop
  let y ← stack.peek
  if y ≠ 0 then return stack.setTop (U256 (x / y))
  else return stack.setTop 0

/-- `opSdiv`: the quotient of the absolute values, negated when the signs differ. -/
def opSdiv (stack : Stack) : Go Stack := do
  let (x, stack) ← stack.pop
  let (y, stack) ← stack.pop
  let x := S256 x
  let y := S256 y
  if y = 0 ∨ x = 0 then return stack.push 0
  else if x.sign ≠ y.sign then return stack.push (U256 (-(|x| / |y|)))
  else return stack.push (U256 (|x| / |y|))

/-- `opMod`. -/
def opMod (stack : Stack) : Go Stack := do
  let (x, stack) ← stack.pop
  let (y, stack) ← stack.pop
  if y = 0 then return stack.push 0
  else return stack.push (U256 (x % y))

/-- `opSmod`: the remainder of the absolute values, with the dividend's sign. -/
def opSmod (stack : Stack) : Go Stack := do
  let (x, stack) ← stack.pop
  let (y, stack) ← stack.pop
  let x := S256 x
  let y := S256 y
  if y = 0 then return stack.push 0
  else if x < 0 then return stack.push (U256 (-(|x| % |y|)))
  else return stack.push (U256 (|x| % |y|))

/-- `opExp`, with its shortcuts for the exponents 0 and 1 and the base 0. -/
def opExp (stack : Stack) : Go Stack := do
  let (base, stack) ← stack.pop
  let (exponent, stack) ← stack.pop
  if exponent < 1 then return stack.push 1
  else if base = 0 then return stack.push 0
  else if exponent = 1 then return stack.push base
  else return stack.push (Exp base exponent)

/-- `opSignExtend`: below byte 31 the bits from `bit` up take the value of
bit `bit`, through a mask of the bits below it. -/
def opSignExtend (stack : Stack) : Go Stack := do
  let (back, stack) ← stack.pop
  if back < 31 then
    let bit := back.toNat * 8 + 7
    let (num, stack) ← stack.pop
    let mask := 2 ^ bit - 1
    let num := if num.testBit bit then Int.lor num (Int.lnot mask) else Int.land num mask
    return stack.push (U256 num)
  else return stack

/-- `opNot`. -/
def opNot (stack : Stack) : Go Stack := do
  let x ← stack.peek
  return stack.setTop (U256 (Int.lnot x))

/-- `opLt`. -/
def opLt (stack : Stack) : Go Stack := do
  let (x, stack) ← stack.pop
  let y ← stack.peek
  return stack.setTop (if x < y then 1 else 0)

/-- `opGt`. -/
def opGt (stack : Stack) : Go Stack := do
  let (x, stack) ← stack.pop
  let y ← stack.peek
  return stack.setTop (if x > y then 1 else 0)

/-- `opSlt`: a word from `tt255` up is negative. -/
def opSlt (stack : Stack) : Go Stack := do
  let (x, stack) ← stack.pop
  let y ← stack.peek
  if x ≥ tt255 ∧ y < tt255 then return stack.setTop 1
  else if x < tt255 ∧ y ≥ tt255 then return stack.setTop 0
  else return stack.setTop (if x < y then 1 else 0)

/-- `opSgt`. -/
def opSgt (stack : Stack) : Go Stack := do
  let (x, stack) ← stack.pop
  let y ← stack.peek
  if x ≥ tt255 ∧ y < tt255 then return stack.setTop 0
  else if x < tt255 ∧ y ≥ tt255 then return stack.setTop 1
  else return stack.setTop (if x > y then 1 else 0)

/-- `opEq`. -/
def opEq (stack : Stack) : Go Stack := do
  let (x, stack) ← stack.pop
  let y ← stack.peek
  return stack.setTop (if x = y then 1 else 0)

/-- `opIszero`. -/
def opIszero (stack : Stack) : Go Stack := do
  let x ← stack.peek
  return stack.setTop (if x > 0 then 0 else 1)

/-- `opAnd`. -/
def opAnd (stack : Stack) : Go Stack := do
  let (x, stack) ← stack.pop
  let (y, stack) ← stack.pop
  return stack.push (Int.land x y)

/-- `opOr`. -/
def opOr (stack : Stack) : Go Stack := do
  let (x, stack) ← stack.pop
  let y ← stack.peek
  return stack.setTop (Int.lor x y)

/-- `opXor`. -/
def opXor (stack : Stack) : Go Stack := do
  let (x, stack) ← stack.pop
  let y ← stack.peek
  return stack.setTop (Int.xor x y)

/-- `opByte`. -/
def opByte (stack : Stack) : Go Stack := do
  let (th, stack) ← stack.pop
  let val ← stack.peek
  if th < 32 then return stack.setTop (Byte val 32 th.toNat).toNat
  else return stack.setTop 0

/-- `opAddmod`: the sum is reduced by the modulus only. -/
def opAddmod (stack : Stack) : Go Stack := do
  let (x, stack) ← stack.pop
  let (y, stack) ← stack.pop
  let (z, stack) ← stack.pop
  if z > 0 then return stack.push (U256 ((x + y) % z))
  else return stack.push 0

/-- `opMulmod`. -/
def opMulmod (stack : Stack) : Go Stack := do
  let (x, stack) ← stack.pop
  let (y, stack) ← stack.pop
  let (z, stack) ← stack.pop
  if z > 0 then return stack.push (U256 ((x * y) % z))
  else return stack.push 0

/-- `opSHL`. -/
def opSHL (stack : Stack) : Go Stack := do
  let (shift, stack) ← stack.pop
  let value ← stack.peek
  let shift := U256 shift
  let value := U256 value
  if shift ≥ 256 then return stack.setTop 0
  else return stack.setTop (U256 (value * 2 ^ shift.toNat))

/-- `opSHR`. -/
def opSHR (stack : Stack) : Go Stack := do
  let (shift, stack) ← stack.pop
  let value ← stack.peek
  let shift := U256 shift
  let value := U256 value
  if shift ≥ 256 then return stack.setTop 0
  else return stack.setTop (U256 (value >>> shift.toNat))

/-- `opSAR`: a large shift leaves the sign. -/
def opSAR (stack : Stack) : Go Stack := do
  let (shift, stack) ← stack.pop
  let (value, stack) ← stack.pop
  let shift := U256 shift
  let value := S256 value
  if shift ≥ 256 then return stack.push (U256 (if value ≥ 0 then 0 else -1))
  else return stack.push (U256 (value >>> shift.toNat))

/-! ### The instructions -/

/-- The word instructions. -/
inductive ArithOp
  | ADD | SUB | MUL | DIV | SDIV | MOD | SMOD | ADDMOD | MULMOD | EXP | SIGNEXTEND
  | LT | GT | SLT | SGT | EQ | ISZERO | AND | OR | XOR | NOT | BYTE | SHL | SHR | SAR
  deriving DecidableEq, Repr

namespace ArithOp

/-- The `execute` entry of each instruction in the jump table. -/
def execute : ArithOp → Stack → Go Stack
  | ADD => opAdd
  | SUB => opSub
  | MUL => opMul
  | DIV => opDiv
  | SDIV => opSdiv
  | MOD => opMod
  | SMOD => opSmod
  | ADDMOD => opAddmod
  | MULMOD => opMulmod
  | EXP => opExp
  | SIGNEXTEND => opSignExtend
  | LT => opLt
  | GT => opGt
  | SLT => opSlt
  | SGT => opSgt
  | EQ => opEq
  | ISZERO => opIszero
  | AND => opAnd
  | OR => opOr
  | XOR => opXor
  | NOT => opNot
  | BYTE => opByte
  | SHL => opSHL
  | SHR => opSHR
  | SAR => opSAR

/-- The number of operands each instruction pops. -/
def arity : ArithOp → Nat
  | ADDMOD | MULMOD => 3
  | ISZERO | NOT => 1
  | _ => 2

/-- The stack of operands `a`, `b`, `c` from the top, as many as the instruction pops. -/
def operands (op : ArithOp) (a b c : Nat) : Stack :=
  ([a, b, c].take op.arity).map (fun w : Nat => (w : Int))

end ArithOp

/-! ### The Yellow Paper's results -/

namespace Word

/-- A word read as a signed integer, two's complement. -/
def signed (a : Nat) : Int :=
  if a < 2 ^ 255 then a else a - 2 ^ 256

/-- The word of an integer: its residue mod `2^256`. -/
def ofInt (i : Int) : Nat :=
  (i % 2 ^ 256).toNat

/-- A truth value as a word. -/
def ofBool (b : Bool) : Nat :=
  if b then 1 else 0

end Word

open Word

/-- The result of each instruction on the words `a`, `b`, `c`, with `a` the
top of the stack, as the Yellow Paper defines it. -/
def ArithOp.result : ArithOp → Nat → Nat → Nat → Nat
  | .ADD, a, b, _ => (a + b) % 2 ^ 256
  | .SUB, a, b, _ => ofInt (a - b)
  | .MUL, a, b, _ => a * b % 2 ^ 256
  | .DIV, a, b, _ => if b = 0 then 0 else a / b
  | .SDIV, a, b, _ => if b = 0 then 0 else ofInt ((signed a).tdiv (signed b))
  | .MOD, a, b, _ => if b = 0 then 0 else a % b
  | .SMOD, a, b, _ => if b = 0 then 0 else ofInt ((signed a).tmod (signed b))
  | .ADDMOD, a, b, n => if n = 0 then 0 else (a + b) % n
  | .MULMOD, a, b, n => if n = 0 then 0 else a * b % n
  | .EXP, a, b, _ => a ^ b % 2 ^ 256
  | .SIGNEXTEND, b, x, _ =>
    if b < 31 then
      let t := 8 * b + 7
      if x.testBit t then x % 2 ^ (t + 1) + (2 ^ 256 - 2 ^ (t + 1)) else x % 2 ^ (t + 1)
    else x
  | .LT, a, b, _ => ofBool (a < b)
  | .GT, a, b, _ => ofBool (a > b)
  | .SLT, a, b, _ => ofBool (signed a < signed b)
  | .SGT, a, b, _ => ofBool (signed a > signed b)
  | .EQ, a, b, _ => ofBool (a = b)
  | .ISZERO, a, _, _ => ofBool (a = 0)
  | .AND, a, b, _ => a &&& b
  | .OR, a, b, _ => a ||| b
  | .XOR, a, b, _ => a ^^^ b
  | .NOT, a, _, _ => 2 ^ 256 - 1 - a
  | .BYTE, i, x, _ => if i < 32 then x / 256 ^ (31 - i) % 256 else 0
  | .SHL, s, v, _ => v * 2 ^ s % 2 ^ 256
  | .SHR, s, v, _ => v / 2 ^ s
  | .SAR, s, v, _ => ofInt (signed v / 2 ^ s)

-- the Yellow Paper's edge cases: `SDIV(-2^255, -1) = -2^255`, and a large `SAR` of a negative word
example : ArithOp.SDIV.result (2 ^ 255) (2 ^ 256 - 1) 0 = 2 ^ 255 := by
  norm_num [ArithOp.result, signed, ofInt]
  rfl

example : ArithOp.SAR.result 256 (2 ^ 256 - 1) 0 = 2 ^ 256 - 1 := by
  norm_num [ArithOp.result, signed, ofInt]
  rfl

/-! ### Words -/

namespace Word

theorem ofInt_lt (i : Int) : ofInt i < 2 ^ 256 := by
  have below := Int.emod_lt_of_pos i (by positivity : (0 : Int) < 2 ^ 256)
  unfold ofInt
  omega

@[simp]
theorem ofInt_zero : ofInt 0 = 0 := by
  unfold ofInt
  omega

/-- A signed word lies in `[-2^255, 2^255)`. -/
theorem signed_range (a : Nat) (word : a < 2 ^ 256) : -2 ^ 255 ≤ signed a ∧ signed a < 2 ^ 255 := by
  unfold signed
  split <;> omega

end Word

/-- `U256` gives the word of an integer. -/
theorem U256_eq_ofInt (x : Int) : U256 x = (ofInt x : Int) := by
  rw [U256_eq_emod, ofInt, Int.toNat_of_nonneg (Int.emod_nonneg _ (by positivity))]

/-- `S256` of a word is its signed reading. -/
theorem S256_natCast {a : Nat} (word : a < 2 ^ 256) : S256 a = signed a := by
  unfold S256 signed tt255 tt256
  split <;> split <;> omega

/-! ### Signed division and the sign extension mask -/

/-- Truncated division through the absolute values, as `opSdiv` takes it. -/
theorem tdiv_eq_abs {x y : Int} (hx : x ≠ 0) (hy : y ≠ 0) :
    x.tdiv y = if x.sign ≠ y.sign then -(|x| / |y|) else |x| / |y| := by
  rcases lt_or_gt_of_ne hx with xneg | xpos <;> rcases lt_or_gt_of_ne hy with yneg | ypos
  · rw [Int.sign_eq_neg_one_of_neg xneg, Int.sign_eq_neg_one_of_neg yneg, if_neg (by simp), abs_of_neg xneg,
      abs_of_neg yneg, ← Int.tdiv_eq_ediv_of_nonneg (by omega), Int.neg_tdiv, Int.tdiv_neg, neg_neg]
  · rw [Int.sign_eq_neg_one_of_neg xneg, Int.sign_eq_one_of_pos ypos, if_pos (by simp), abs_of_neg xneg,
      abs_of_pos ypos, ← Int.tdiv_eq_ediv_of_nonneg (by omega), Int.neg_tdiv, neg_neg]
  · rw [Int.sign_eq_one_of_pos xpos, Int.sign_eq_neg_one_of_neg yneg, if_pos (by simp), abs_of_pos xpos,
      abs_of_neg yneg, ← Int.tdiv_eq_ediv_of_nonneg (by omega), Int.tdiv_neg, neg_neg]
  · rw [Int.sign_eq_one_of_pos xpos, Int.sign_eq_one_of_pos ypos, if_neg (by simp), abs_of_pos xpos,
      abs_of_pos ypos, Int.tdiv_eq_ediv_of_nonneg (by omega)]

/-- Truncated remainder through the absolute values, as `opSmod` takes it. -/
theorem tmod_eq_abs (x y : Int) : x.tmod y = if x < 0 then -(|x| % |y|) else |x| % |y| := by
  split
  · next neg =>
    rw [abs_of_neg neg, Int.emod_abs, ← Int.tmod_eq_emod_of_nonneg (by omega), Int.neg_tmod, neg_neg]
  · next nonneg =>
    rw [abs_of_nonneg (by omega), Int.emod_abs, Int.tmod_eq_emod_of_nonneg (by omega)]

/-- An integer in `[-2^255, 2^255)` shifted right by 256 bits or more keeps its sign only. -/
theorem ediv_two_pow_of_large {i : Int} {s : Nat} (lo : -2 ^ 255 ≤ i) (hi : i < 2 ^ 255) (large : 256 ≤ s) :
    i / 2 ^ s = if i ≥ 0 then 0 else -1 := by
  have bound : (2 : Int) ^ 256 ≤ 2 ^ s := pow_le_pow_right₀ (by norm_num) large
  generalize (2 : Int) ^ s = P at bound ⊢
  split
  · exact Int.ediv_eq_zero_of_lt (by omega) (by omega)
  · exact ((Int.ediv_emod_unique (by omega)).mpr ⟨(by ring : i + P + P * -1 = i), by omega, by omega⟩).1

/-- Bit `t` of `x` splits its low `t + 1` bits. -/
theorem mod_two_pow_succ_of_testBit (x t : Nat) :
    x % 2 ^ (t + 1) = x % 2 ^ t + (if x.testBit t then 2 ^ t else 0) := by
  rw [Nat.mod_pow_succ, Nat.testBit_eq_decide_div_mod_eq]
  have bit := Nat.mod_two_eq_zero_or_one (x / 2 ^ t)
  rcases bit with zero | one
  · simp [zero]
  · simp [one]

/-- The `SIGNEXTEND` mask with bit `t` set: the bits from `t` up become ones. -/
theorem U256_lor_lnot_mask {x t : Nat} (low : t < 256) (set : x.testBit t = true) :
    U256 (Int.lor x (Int.lnot (2 ^ t - 1))) = ((x % 2 ^ (t + 1) + (2 ^ 256 - 2 ^ (t + 1)) : Nat) : Int) := by
  have mask : (2 : Int) ^ t - 1 = ((2 ^ t - 1 : Nat) : Int) := by
    have := Nat.one_le_two_pow (n := t)
    push_cast [Nat.cast_sub this]
    rfl
  have small : 2 ^ (t + 1) ≤ 2 ^ 256 := Nat.pow_le_pow_right (by decide) low
  have split := mod_two_pow_succ_of_testBit x t
  rw [if_pos set] at split
  rw [mask]
  change U256 (Int.negSucc (Nat.ldiff (2 ^ t - 1) x)) = _
  rw [U256_eq_emod, Int.negSucc_emod _ (by positivity), ldiff_two_pow_sub_one, split, pow_succ 2 t]
  have below : x % 2 ^ t < 2 ^ t := Nat.mod_lt _ (by positivity)
  rw [pow_succ 2 t] at small
  generalize 2 ^ t = P at below small ⊢
  have inWord : ((P - (x % P + 1) : Nat) : Int) % 2 ^ 256 = ((P - (x % P + 1) : Nat) : Int) :=
    Int.emod_eq_of_lt (by positivity) (by omega)
  rw [inWord]
  omega

/-- The `SIGNEXTEND` mask with bit `t` clear: the bits from `t` up become zeros. -/
theorem U256_land_mask {x t : Nat} (low : t < 256) (clear : x.testBit t = false) :
    U256 (Int.land x (2 ^ t - 1)) = ((x % 2 ^ (t + 1) : Nat) : Int) := by
  have mask : (2 : Int) ^ t - 1 = ((2 ^ t - 1 : Nat) : Int) := by
    have := Nat.one_le_two_pow (n := t)
    push_cast [Nat.cast_sub this]
    rfl
  have split := mod_two_pow_succ_of_testBit x t
  simp only [clear, Bool.false_eq_true, if_false, Nat.add_zero] at split
  rw [mask, split]
  change U256 ((x &&& (2 ^ t - 1) : Nat) : Int) = _
  rw [Nat.and_two_pow_sub_one_eq_mod, U256_of_lt (lt_of_lt_of_le (Nat.mod_lt _ (by positivity))
    (Nat.pow_le_pow_right (by decide) low.le))]

/-- A truth value pushed by the comparisons. -/
@[simp]
theorem natCast_ofBool (p : Prop) [Decidable p] : ((ofBool p : Nat) : Int) = if p then 1 else 0 := by
  unfold ofBool
  split <;> simp_all

/-- `opSlt` and `opSgt` settle words of different signs by the sign, and
compare words of one sign as unsigned. -/
theorem signed_lt_signed {a b : Nat} (ha : a < 2 ^ 256) (hb : b < 2 ^ 256) :
    signed a < signed b ↔
      (a : Int) ≥ tt255 ∧ (b : Int) < tt255 ∨ ¬((a : Int) < tt255 ∧ (b : Int) ≥ tt255) ∧ (a : Int) < b := by
  unfold signed tt255
  split <;> split <;> omega

/-! ### Each instruction on words -/

section Words

variable {a b c : Nat} (rest : Stack)

theorem opAdd_spec : opAdd (a :: b :: rest) = .ok (((a + b) % 2 ^ 256 : Nat) :: rest) := by
  simp only [opAdd, Stack.pop, Stack.peek, Stack.setTop, U256_eq_emod]
  push_cast
  rfl

theorem opSub_spec : opSub (a :: b :: rest) = .ok ((ofInt (a - b) : Nat) :: rest) := by
  simp only [opSub, Stack.pop, Stack.peek, Stack.setTop, U256_eq_ofInt]
  rfl

theorem opMul_spec : opMul (a :: b :: rest) = .ok ((a * b % 2 ^ 256 : Nat) :: rest) := by
  simp only [opMul, Stack.pop, Stack.push, Lang.ok_bind, pure_eq_ok, U256_mul]

theorem opDiv_spec (ha : a < 2 ^ 256) : opDiv (a :: b :: rest) = .ok (((if b = 0 then 0 else a / b) : Nat) :: rest) := by
  simp only [opDiv, Stack.pop, Stack.peek, Stack.setTop, Lang.ok_bind]
  by_cases zero : b = 0
  · subst zero
    rfl
  · have quotient : U256 ((a : Int) / b) = ((a / b : Nat) : Int) := by
      rw [← Int.natCast_ediv, U256_of_lt (lt_of_le_of_lt (Nat.div_le_self a b) ha)]
    simp only [ne_eq, Nat.cast_eq_zero, zero, not_false_eq_true, if_true, if_false, quotient]
    rfl

/-- `opSdiv` on any two integers; the word specification below rewrites the `S256` reads. -/
theorem opSdiv_cons (x y : Int) : opSdiv (x :: y :: rest) =
    .ok ((if S256 y = 0 ∨ S256 x = 0 then 0
      else if (S256 x).sign ≠ (S256 y).sign then U256 (-(|S256 x| / |S256 y|))
      else U256 (|S256 x| / |S256 y|)) :: rest) := by
  simp only [opSdiv, Stack.pop, Stack.push, Lang.ok_bind, pure_eq_ok]
  split_ifs <;> rfl

theorem opSdiv_spec (ha : a < 2 ^ 256) (hb : b < 2 ^ 256) :
    opSdiv (a :: b :: rest) =
      .ok (((if b = 0 then 0 else ofInt ((signed a).tdiv (signed b))) : Nat) :: rest) := by
  rw [opSdiv_cons, S256_natCast ha, S256_natCast hb]
  have zeroB : signed b = 0 ↔ b = 0 := by unfold signed; split <;> omega
  have zeroA : signed a = 0 ↔ a = 0 := by unfold signed; split <;> omega
  by_cases bZero : b = 0
  · rw [if_pos (.inl (zeroB.mpr bZero)), if_pos bZero]
    rfl
  · by_cases aZero : a = 0
    · -- a zero dividend: the code pushes 0, which is the quotient
      rw [if_pos (.inr (zeroA.mpr aZero)), if_neg bZero, zeroA.mpr aZero, Int.zero_tdiv, ofInt_zero]
      rfl
    · have quotient := tdiv_eq_abs (mt zeroA.mp aZero) (mt zeroB.mp bZero)
      rw [if_neg (by tauto), if_neg bZero, quotient]
      by_cases signs : (signed a).sign ≠ (signed b).sign
      · rw [if_pos signs, if_pos signs, U256_eq_ofInt]
      · rw [if_neg signs, if_neg signs, U256_eq_ofInt]

theorem opMod_spec (ha : a < 2 ^ 256) :
    opMod (a :: b :: rest) = .ok (((if b = 0 then 0 else a % b) : Nat) :: rest) := by
  simp only [opMod, Stack.pop, Stack.push, Lang.ok_bind, pure_eq_ok]
  by_cases zero : b = 0
  · subst zero
    rfl
  · have remainder : U256 ((a : Int) % b) = ((a % b : Nat) : Int) := by
      rw [← Int.natCast_emod, U256_of_lt (lt_of_le_of_lt (Nat.mod_le a b) ha)]
    simp only [Nat.cast_eq_zero, zero, if_false, remainder]

theorem opSmod_cons (x y : Int) : opSmod (x :: y :: rest) =
    .ok ((if S256 y = 0 then 0
      else if S256 x < 0 then U256 (-(|S256 x| % |S256 y|))
      else U256 (|S256 x| % |S256 y|)) :: rest) := by
  simp only [opSmod, Stack.pop, Stack.push, Lang.ok_bind, pure_eq_ok]
  split_ifs <;> rfl

theorem opSmod_spec (ha : a < 2 ^ 256) (hb : b < 2 ^ 256) :
    opSmod (a :: b :: rest) =
      .ok (((if b = 0 then 0 else ofInt ((signed a).tmod (signed b))) : Nat) :: rest) := by
  rw [opSmod_cons, S256_natCast ha, S256_natCast hb]
  have zeroB : signed b = 0 ↔ b = 0 := by unfold signed; split <;> omega
  by_cases bZero : b = 0
  · rw [if_pos (zeroB.mpr bZero), if_pos bZero]
    rfl
  · rw [if_neg (mt zeroB.mp bZero), if_neg bZero, tmod_eq_abs]
    by_cases negative : signed a < 0
    · rw [if_pos negative, if_pos negative, U256_eq_ofInt]
    · rw [if_neg negative, if_neg negative, U256_eq_ofInt]

theorem opAddmod_spec (hn : c < 2 ^ 256) :
    opAddmod (a :: b :: c :: rest) = .ok (((if c = 0 then 0 else (a + b) % c) : Nat) :: rest) := by
  simp only [opAddmod, Stack.pop, Stack.push, Lang.ok_bind, pure_eq_ok]
  by_cases zero : c = 0
  · subst zero
    rfl
  · have reduced : U256 (((a : Int) + b) % c) = (((a + b) % c : Nat) : Int) := by
      rw [← Nat.cast_add, ← Int.natCast_emod, U256_of_lt (lt_trans (Nat.mod_lt _ (by omega)) hn)]
    rw [if_pos (by omega), if_neg zero, reduced]

theorem opMulmod_spec (hn : c < 2 ^ 256) :
    opMulmod (a :: b :: c :: rest) = .ok (((if c = 0 then 0 else a * b % c) : Nat) :: rest) := by
  simp only [opMulmod, Stack.pop, Stack.push, Lang.ok_bind, pure_eq_ok]
  by_cases zero : c = 0
  · subst zero
    rfl
  · have reduced : U256 (((a : Int) * b) % c) = ((a * b % c : Nat) : Int) := by
      rw [← Nat.cast_mul, ← Int.natCast_emod, U256_of_lt (lt_trans (Nat.mod_lt _ (by omega)) hn)]
    rw [if_pos (by omega), if_neg zero, reduced]

theorem opExp_spec (ha : a < 2 ^ 256) : opExp (a :: b :: rest) = .ok ((a ^ b % 2 ^ 256 : Nat) :: rest) := by
  simp only [opExp, Stack.pop, Stack.push, Lang.ok_bind, pure_eq_ok]
  -- the shortcuts agree with the power: exponent 0, base 0, exponent 1
  by_cases zero : b = 0
  · subst zero
    rw [if_pos (by decide)]
    rfl
  · rw [if_neg (by omega)]
    by_cases noBase : a = 0
    · subst noBase
      rw [if_pos Nat.cast_zero, zero_pow zero]
      rfl
    · rw [if_neg (by omega)]
      by_cases one : b = 1
      · subst one
        rw [if_pos Nat.cast_one, pow_one, Nat.mod_eq_of_lt ha]
      · rw [if_neg (by omega), Exp_eq ha]

theorem opSignExtend_spec :
    opSignExtend (a :: b :: rest) = .ok ((if a < 31 then
      (if b.testBit (8 * a + 7) then b % 2 ^ (8 * a + 7 + 1) + (2 ^ 256 - 2 ^ (8 * a + 7 + 1))
        else b % 2 ^ (8 * a + 7 + 1)) else b : Nat) :: rest) := by
  simp only [opSignExtend, Stack.pop, Stack.push, Lang.ok_bind, pure_eq_ok]
  by_cases low : a < 31
  · rw [if_pos (by omega), if_pos low, Int.toNat_natCast, Nat.mul_comm a 8]
    change (do
      let (num, stack) ← Stack.pop ((b : Int) :: rest)
      _) = _
    simp only [Stack.pop, Lang.ok_bind]
    have bit : Int.testBit (b : Int) (8 * a + 7) = b.testBit (8 * a + 7) := rfl
    rw [bit]
    split
    · next set => rw [U256_lor_lnot_mask (by omega) set]
    · next clear => rw [U256_land_mask (by omega) (by simpa using clear)]
  · rw [if_neg (by omega), if_neg low]

theorem opLt_spec : opLt (a :: b :: rest) = .ok ((ofBool (a < b) : Nat) :: rest) := by
  simp only [opLt, Stack.pop, Stack.peek, Stack.setTop, Lang.ok_bind, pure_eq_ok, Nat.cast_lt, natCast_ofBool]

theorem opGt_spec : opGt (a :: b :: rest) = .ok ((ofBool (a > b) : Nat) :: rest) := by
  simp only [opGt, Stack.pop, Stack.peek, Stack.setTop, Lang.ok_bind, pure_eq_ok, gt_iff_lt, Nat.cast_lt,
    natCast_ofBool]

theorem opSlt_spec (ha : a < 2 ^ 256) (hb : b < 2 ^ 256) :
    opSlt (a :: b :: rest) = .ok ((ofBool (signed a < signed b) : Nat) :: rest) := by
  simp only [opSlt, Stack.pop, Stack.peek, Stack.setTop, Lang.ok_bind, pure_eq_ok, natCast_ofBool,
    signed_lt_signed ha hb]
  -- the code's three tests: a negative `x`, a negative `y`, and the unsigned order
  by_cases negative : (a : Int) ≥ tt255 ∧ (b : Int) < tt255
  · rw [if_pos negative, if_pos (.inl negative)]
  · by_cases positive : (a : Int) < tt255 ∧ (b : Int) ≥ tt255
    · rw [if_neg negative, if_pos positive, if_neg (by omega)]
    · rw [if_neg negative, if_neg positive]
      by_cases below : (a : Int) < b
      · rw [if_pos below, if_pos (.inr ⟨positive, below⟩)]
      · rw [if_neg below, if_neg (by omega)]

theorem opSgt_spec (ha : a < 2 ^ 256) (hb : b < 2 ^ 256) :
    opSgt (a :: b :: rest) = .ok ((ofBool (signed a > signed b) : Nat) :: rest) := by
  simp only [opSgt, Stack.pop, Stack.peek, Stack.setTop, Lang.ok_bind, pure_eq_ok, natCast_ofBool, gt_iff_lt,
    signed_lt_signed hb ha]
  by_cases negative : (a : Int) ≥ tt255 ∧ (b : Int) < tt255
  · rw [if_pos negative, if_neg (by omega)]
  · by_cases positive : (a : Int) < tt255 ∧ (b : Int) ≥ tt255
    · rw [if_neg negative, if_pos positive, if_pos (.inl positive.symm)]
    · rw [if_neg negative, if_neg positive]
      by_cases above : (b : Int) < a
      · rw [if_pos above, if_pos (.inr ⟨fun h => negative h.symm, above⟩)]
      · rw [if_neg above, if_neg (by omega)]

theorem opEq_spec : opEq (a :: b :: rest) = .ok ((ofBool (a = b) : Nat) :: rest) := by
  simp only [opEq, Stack.pop, Stack.peek, Stack.setTop, Lang.ok_bind, pure_eq_ok, Nat.cast_inj, natCast_ofBool]

theorem opIszero_spec : opIszero (a :: rest) = .ok ((ofBool (a = 0) : Nat) :: rest) := by
  simp only [opIszero, Stack.peek, Stack.setTop, Lang.ok_bind, pure_eq_ok, natCast_ofBool]
  by_cases zero : a = 0
  · rw [if_neg (by omega), if_pos zero]
  · rw [if_pos (by omega), if_neg zero]

theorem opAnd_spec : opAnd (a :: b :: rest) = .ok ((a &&& b : Nat) :: rest) := by
  simp only [opAnd, Stack.pop, Stack.push, Lang.ok_bind, pure_eq_ok]
  rfl

theorem opOr_spec : opOr (a :: b :: rest) = .ok ((a ||| b : Nat) :: rest) := by
  simp only [opOr, Stack.pop, Stack.peek, Stack.setTop, Lang.ok_bind, pure_eq_ok]
  rfl

theorem opXor_spec : opXor (a :: b :: rest) = .ok ((a ^^^ b : Nat) :: rest) := by
  simp only [opXor, Stack.pop, Stack.peek, Stack.setTop, Lang.ok_bind, pure_eq_ok]
  rfl

theorem opNot_spec (ha : a < 2 ^ 256) : opNot (a :: rest) = .ok ((2 ^ 256 - 1 - a : Nat) :: rest) := by
  simp only [opNot, Stack.peek, Stack.setTop, Lang.ok_bind, pure_eq_ok, U256_eq_emod]
  -- `Not` of a natural is `-a - 1`, whose residue is the complement within the word
  have complement : Int.lnot (a : Int) % 2 ^ 256 = ((2 ^ 256 - 1 - a : Nat) : Int) := by
    change Int.negSucc a % 2 ^ 256 = _
    rw [Int.negSucc_eq]
    omega
  rw [complement]

theorem opByte_spec :
    opByte (a :: b :: rest) = .ok ((if a < 32 then b / 256 ^ (31 - a) % 256 else 0 : Nat) :: rest) := by
  simp only [opByte, Stack.pop, Stack.peek, Stack.setTop, Lang.ok_bind, pure_eq_ok, Int.toNat_natCast]
  by_cases low : a < 32
  · have base : (256 : Nat) ^ (31 - a) = 2 ^ (8 * (31 - a)) := by
      rw [pow_mul]
      norm_num
    rw [if_pos (by omega), if_pos low, toNat_Byte, if_pos low, base]
  · rw [if_neg (by omega), if_neg low]
    rfl

theorem opSHL_spec (ha : a < 2 ^ 256) (hb : b < 2 ^ 256) :
    opSHL (a :: b :: rest) = .ok ((b * 2 ^ a % 2 ^ 256 : Nat) :: rest) := by
  simp only [opSHL, Stack.pop, Stack.peek, Stack.setTop, Lang.ok_bind, pure_eq_ok, U256_of_lt ha,
    U256_of_lt hb, Int.toNat_natCast]
  by_cases large : 256 ≤ a
  · -- the code's early return: a shift past the word clears it
    have cleared : b * 2 ^ a % 2 ^ 256 = 0 :=
      Nat.mod_eq_zero_of_dvd (Dvd.dvd.mul_left (pow_dvd_pow 2 large) b)
    rw [if_pos (by omega), cleared]
    rfl
  · have product : (b : Int) * 2 ^ a = ((b * 2 ^ a : Nat) : Int) := by push_cast; rfl
    rw [if_neg (by omega), product, U256_natCast]

theorem opSHR_spec (ha : a < 2 ^ 256) (hb : b < 2 ^ 256) :
    opSHR (a :: b :: rest) = .ok ((b / 2 ^ a : Nat) :: rest) := by
  simp only [opSHR, Stack.pop, Stack.peek, Stack.setTop, Lang.ok_bind, pure_eq_ok, U256_of_lt ha,
    U256_of_lt hb, Int.toNat_natCast]
  by_cases large : 256 ≤ a
  · have cleared : b / 2 ^ a = 0 :=
      Nat.div_eq_of_lt (lt_of_lt_of_le hb (Nat.pow_le_pow_right (by decide) large))
    rw [if_pos (by omega), cleared]
    rfl
  · rw [if_neg (by omega), ← Int.natCast_shiftRight, Nat.shiftRight_eq_div_pow,
      U256_of_lt (lt_of_le_of_lt (Nat.div_le_self b _) hb)]

/-- `opSAR` on any two integers, before the `S256` read is rewritten. -/
theorem opSAR_cons (x y : Int) : opSAR (x :: y :: rest) =
    .ok ((if U256 x ≥ 256 then U256 (if S256 y ≥ 0 then 0 else -1) else U256 (S256 y >>> (U256 x).toNat))
      :: rest) := by
  simp only [opSAR, Stack.pop, Stack.push, Lang.ok_bind, pure_eq_ok]
  split_ifs <;> rfl

theorem opSAR_spec (ha : a < 2 ^ 256) (hb : b < 2 ^ 256) :
    opSAR (a :: b :: rest) = .ok ((ofInt (signed b / 2 ^ a) : Nat) :: rest) := by
  rw [opSAR_cons, U256_of_lt ha, S256_natCast hb, Int.toNat_natCast]
  by_cases large : 256 ≤ a
  · -- a shift past the word leaves the sign: the floor quotient is `0` or `-1`
    have range := signed_range b hb
    rw [if_pos (by omega), ediv_two_pow_of_large range.1 range.2 large, U256_eq_ofInt]
  · rw [if_neg (by omega), Int.shiftRight_eq_div_pow, U256_eq_ofInt, Nat.cast_pow, Nat.cast_ofNat]

end Words

/-! ### The word semantics -/

/-- The sign-extended value stays a word. -/
theorem mod_add_mask_lt (x : Nat) {t : Nat} (low : t + 1 ≤ 256) :
    x % 2 ^ (t + 1) + (2 ^ 256 - 2 ^ (t + 1)) < 2 ^ 256 := by
  have below := Nat.mod_lt x (by positivity : 0 < 2 ^ (t + 1))
  have within := Nat.pow_le_pow_right (by decide : 0 < 2) low
  omega

/-- A truth value is a word. -/
theorem ofBool_lt (p : Prop) [Decidable p] : ofBool p < 2 ^ 256 := by
  unfold ofBool
  split <;> norm_num

/-- Every result is a word. -/
theorem ArithOp.result_lt (op : ArithOp) {a b c : Nat} (ha : a < 2 ^ 256) (hb : b < 2 ^ 256) (hc : c < 2 ^ 256) :
    op.result a b c < 2 ^ 256 := by
  have word : (0 : Nat) < 2 ^ 256 := by positivity
  cases op <;> simp only [ArithOp.result]
  case ADD | MUL | EXP | SHL => exact Nat.mod_lt _ word
  case SUB | SAR => exact ofInt_lt _
  case LT | GT | SLT | SGT | EQ | ISZERO => exact ofBool_lt _
  case SHR => exact lt_of_le_of_lt (Nat.div_le_self b _) hb
  case AND => exact lt_of_le_of_lt Nat.and_le_left ha
  case OR => exact Nat.or_lt_two_pow ha hb
  case XOR => exact Nat.xor_lt_two_pow ha hb
  case NOT => omega
  case BYTE => split
               · exact lt_trans (Nat.mod_lt _ (by norm_num)) (by norm_num)
               · exact word
  -- the remaining instructions have a zero case
  all_goals split
  case DIV.isFalse => exact lt_of_le_of_lt (Nat.div_le_self a b) ha
  case MOD.isFalse => exact lt_of_le_of_lt (Nat.mod_le a b) ha
  case SDIV.isFalse | SMOD.isFalse => exact ofInt_lt _
  case ADDMOD.isFalse | MULMOD.isFalse => exact lt_trans (Nat.mod_lt _ (Nat.pos_of_ne_zero ‹_›)) hc
  case SIGNEXTEND.isTrue low =>
    split
    · exact mod_add_mask_lt b (by omega)
    · exact lt_of_lt_of_le (Nat.mod_lt _ (by positivity)) (Nat.pow_le_pow_right (by decide) (by omega))
  case SIGNEXTEND.isFalse => exact hb
  all_goals exact word

/-- Each op function, run on its operands over any stack, pushes the
instruction's result on the rest. -/
theorem ArithOp.execute_operands (op : ArithOp) {a b c : Nat} (ha : a < 2 ^ 256) (hb : b < 2 ^ 256)
    (hc : c < 2 ^ 256) (rest : Stack) :
    op.execute (op.operands a b c ++ rest) = .ok ((op.result a b c : Int) :: rest) := by
  cases op
  case ADD => exact opAdd_spec rest
  case SUB => exact opSub_spec rest
  case MUL => exact opMul_spec rest
  case DIV => exact opDiv_spec rest ha
  case SDIV => exact opSdiv_spec rest ha hb
  case MOD => exact opMod_spec rest ha
  case SMOD => exact opSmod_spec rest ha hb
  case ADDMOD => exact opAddmod_spec rest hc
  case MULMOD => exact opMulmod_spec rest hc
  case EXP => exact opExp_spec rest ha
  case SIGNEXTEND => exact opSignExtend_spec rest
  case LT => exact opLt_spec rest
  case GT => exact opGt_spec rest
  case SLT => exact opSlt_spec rest ha hb
  case SGT => exact opSgt_spec rest ha hb
  case EQ => exact opEq_spec rest
  case ISZERO => exact opIszero_spec rest
  case AND => exact opAnd_spec rest
  case OR => exact opOr_spec rest
  case XOR => exact opXor_spec rest
  case NOT => exact opNot_spec rest ha
  case BYTE => exact opByte_spec rest
  case SHL => exact opSHL_spec rest ha hb
  case SHR => exact opSHR_spec rest ha hb
  case SAR => exact opSAR_spec rest ha hb

/-- The word instructions compute the Yellow Paper's results: on a stack of
words, each pops its operands and pushes its result, the rest of the stack is
untouched, and every entry of the stack is again a word. -/
theorem execute_yellow_paper (op : ArithOp) (a b c : Nat) (rest : Stack)
    (words : a < 2 ^ 256 ∧ b < 2 ^ 256 ∧ c < 2 ^ 256) (restWords : ∀ w ∈ rest, 0 ≤ w ∧ w < 2 ^ 256) :
    op.execute (op.operands a b c ++ rest) = .ok ((op.result a b c : Int) :: rest) ∧
      ∀ w ∈ (op.result a b c : Int) :: rest, 0 ≤ w ∧ w < 2 ^ 256 := by
  obtain ⟨ha, hb, hc⟩ := words
  refine ⟨op.execute_operands ha hb hc rest, ?_⟩
  have top : ((op.result a b c : Nat) : Int) < 2 ^ 256 := by exact_mod_cast op.result_lt ha hb hc
  rintro w (_ | ⟨_, below⟩)
  · exact ⟨Int.natCast_nonneg _, top⟩
  · exact restWords w below

/-- `SDIV` of `-2^255` by `-1`, on an empty rest. -/
theorem execute_yellow_paper_sdiv_min :
    (ArithOp.SDIV.execute (ArithOp.SDIV.operands (2 ^ 255) (2 ^ 256 - 1) 0 ++ []) =
        .ok ((ArithOp.SDIV.result (2 ^ 255) (2 ^ 256 - 1) 0 : Int) :: []) ∧
      ∀ w ∈ ((ArithOp.SDIV.result (2 ^ 255) (2 ^ 256 - 1) 0 : Int) :: []), 0 ≤ w ∧ w < 2 ^ 256) :=
  execute_yellow_paper .SDIV (2 ^ 255) (2 ^ 256 - 1) 0 [] ⟨by norm_num, by norm_num, by norm_num⟩
    (fun _ absent => absurd absent List.not_mem_nil)

end Ebakus.Core.Vm