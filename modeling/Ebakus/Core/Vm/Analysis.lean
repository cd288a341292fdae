/-
# Jump-destination analysis (`core/vm/analysis.go`)

`codeBitmap` marks, one bit a byte of code, the bytes that are immediates of
a PUSH instruction, so that a jump into them can be refused. It walks the code
as the interpreter decodes it: an opcode, and after a `PUSHn` its `n`
immediate bytes, which it marks eight at a time with `set8` and then one at a
time. Bit `pos` is the bit `0x80 >> (pos % 8)` of byte `pos / 8`; every write
is an index into the bitmap, which Go checks.

`Reached` is the decoding itself, stated apart from the code: the positions
it visits from 0, each the one before moved past its opcode and immediates.
The bitmap is proved to hold exactly the immediates of the PUSHes it visits,
including those that run past the end of the code, and to be written only
inside the bytes `codeBitmap` allocates.
-/

import Mathlib.Data.Nat.Bitwise
import Ebakus.Lang.Go

namespace Ebakus.Core.Vm

open Ebakus.Lang

/-- `OpCode`. -/
abbrev OpCode := UInt8

/-- `PUSH1`. -/
def PUSH1 : OpCode := 0x60

/-- `PUSH32`. -/
def PUSH32 : OpCode := 0x7f

/-- `bitvec`. -/
abbrev bitvec := List UInt8

/-- `(*bits)[i] |= mask`. -/
def orAt (bits : bitvec) (i : Nat) (mask : UInt8) : Go bitvec :=
  match bits[i]? with
  | some b => .ok (bits.set i (b ||| mask))
  | none => .error .indexOutOfRange

/-- `bits.set(pos)`. -/
def bitvec.set (bits : bitvec) (pos : Nat) : Go bitvec :=
  orAt bits (pos / 8) (0x80 >>> (pos % 8).toUInt8)

/-- `bits.set8(pos)`: the eight bits from `pos` on, across two bytes. -/
def bitvec.set8 (bits : bitvec) (pos : Nat) : Go bitvec := do
  let bits ← orAt bits (pos / 8) (0xFF >>> (pos % 8).toUInt8)
  orAt bits (pos / 8 + 1) (~~~(0xFF >>> (pos % 8).toUInt8))

/-- `bits.codeSegment(pos)`: the bit of `pos` is clear. -/
def bitvec.codeSegment (bits : bitvec) (pos : Nat) : Go Bool :=
  match bits[pos / 8]? with
  | some b => .ok ((b &&& 0x80 >>> (pos % 8).toUInt8) == 0)
  | none => .error .indexOutOfRange

/-- The loop of `codeBitmap` over whole bytes of immediates: `set8` while
eight bits or more are left. -/
def set8Loop : bitvec → Nat → Nat → Go (bitvec × Nat × Nat)
  | bits, pc, numbits + 8 => do
    let bits ← bits.set8 pc
    set8Loop bits (pc + 8) numbits
  | bits, pc, numbits => .ok (bits, pc, numbits)

/-- The loop of `codeBitmap` over the bits left. -/
def setLoop : bitvec → Nat → Nat → Go (bitvec × Nat)
  | bits, pc, 0 => .ok (bits, pc)
  | bits, pc, numbits + 1 => do
    let bits ← bits.set pc
    setLoop bits (pc + 1) numbits

/-- The loop of `codeBitmap` from `pc`, for at most `fuel` more opcodes. Every
pass moves `pc` forward, so `len(code)` passes reach the end of the code. -/
def codeBitmapLoop (code : List UInt8) : Nat → bitvec → Nat → Go bitvec
  | 0, bits, _ => .ok bits
  | fuel + 1, bits, pc =>
    match code[pc]? with
    | none => .ok bits
    | some op =>
      if PUSH1 ≤ op ∧ op ≤ PUSH32 then do
        let (bits, pc, numbits) ← set8Loop bits (pc + 1) (op - PUSH1 + 1).toNat
        let (bits, pc) ← setLoop bits pc numbits
        codeBitmapLoop code fuel bits pc
      else codeBitmapLoop code fuel bits (pc + 1)

/-- `codeBitmap`: four bytes of slack cover a `PUSH32` at the end. -/
def codeBitmap (code : List UInt8) : Go bitvec :=
  codeBitmapLoop code code.length (List.replicate (code.length / 8 + 1 + 4) 0) 0

/-! ### The decoding -/

/-- The number of immediate bytes after an opcode. -/
def pushWidth (op : OpCode) : Nat :=
  if PUSH1 ≤ op ∧ op ≤ PUSH32 then (op - PUSH1 + 1).toNat else 0

/-- The position after the instruction at `pc`. -/
def nextPc (code : List UInt8) (pc : Nat) : Nat :=
  pc + 1 + pushWidth (code.getD pc 0)

/-- The positions the sequential decoding from 0 visits. -/
inductive Reached (code : List UInt8) : Nat → Prop
  | start : Reached code 0
  | next {pc : Nat} : Reached code pc → pc < code.length → Reached code (nextPc code pc)

/-- `pos` is an immediate byte of a PUSH the decoding visits. -/
def InPushData (code : List UInt8) (pos : Nat) : Prop :=
  ∃ pc, Reached code pc ∧ pc < code.length ∧ pc < pos ∧ pos < nextPc code pc

theorem lt_nextPc (code : List UInt8) (pc : Nat) : pc < nextPc code pc := by
  unfold nextPc
  omega

theorem toNat_pushWidth {op : OpCode} (push : PUSH1 ≤ op ∧ op ≤ PUSH32) :
    (op - PUSH1 + 1).toNat = op.toNat - 95 := by
  have low : 96 ≤ op.toNat := by simpa [PUSH1, UInt8.le_iff_toNat_le] using push.1
  have fits := UInt8.toNat_lt op
  rw [UInt8.toNat_add, UInt8.toNat_sub_of_le _ _ push.1]
  simp only [PUSH1, UInt8.reduceToNat]
  omega

theorem pushWidth_le (op : OpCode) : pushWidth op ≤ 32 := by
  unfold pushWidth
  split
  · next push =>
    have fits := push.2
    simp only [PUSH32, UInt8.le_iff_toNat_le, UInt8.reduceToNat] at fits
    rw [toNat_pushWidth push]
    omega
  · omega

/-- No visited position lies inside the instruction at a visited `pc`: the
decoding meets the instructions one after the other. -/
theorem Reached.not_inside {code : List UInt8} {pc : Nat} (atPc : Reached code pc)
    (before : ∀ q, Reached code q → q < pc → nextPc code q ≤ pc) :
    ∀ q, Reached code q → ¬ (pc < q ∧ q < nextPc code pc) := by
  intro q atQ
  induction atQ with
  | start => omega
  | @next q₀ atQ₀ _ ih =>
    rintro ⟨after, inside⟩
    rcases Nat.lt_trichotomy q₀ pc with earlier | same | later
    · have := before q₀ atQ₀ earlier
      omega
    · subst same
      omega
    · exact ih ⟨later, Nat.lt_trans (lt_nextPc code q₀) inside⟩

/-- The decoding moves past each visited instruction before it visits another. -/
theorem Reached.nextPc_le {code : List UInt8} {pc : Nat} (atPc : Reached code pc) :
    ∀ q, Reached code q → q < pc → nextPc code q ≤ pc := by
  induction atPc with
  | start => omega
  | @next pc₀ atPc₀ _ ih =>
    intro q atQ earlier
    rcases Nat.lt_trichotomy q pc₀ with before | same | after
    · exact Nat.le_trans (ih q atQ before) (Nat.le_of_lt (lt_nextPc code pc₀))
    · rw [same]
    · exact absurd ⟨after, earlier⟩ (atPc₀.not_inside ih q atQ)

/-! ### Bits -/

/-- Bit `pos` of a bitmap. -/
def bitAt (bits : bitvec) (pos : Nat) : Bool :=
  (bits.getD (pos / 8) 0).toNat.testBit (7 - pos % 8)

/-- `orAt` inside the bitmap sets in byte `i` the bits of the mask. -/
theorem orAt_spec {bits : bitvec} {i : Nat} (inside : i < bits.length) (mask : UInt8) :
    ∃ bits', orAt bits i mask = .ok bits' ∧ bits'.length = bits.length ∧
      ∀ p, bitAt bits' p = (bitAt bits p || (p / 8 = i && mask.toNat.testBit (7 - p % 8))) := by
  refine ⟨List.set bits i (bits[i] ||| mask), by simp [orAt, inside], by simp, fun p => ?_⟩
  simp only [bitAt, List.getD_eq_getElem?_getD, List.getElem?_set]
  by_cases here : i = p / 8
  · subst here
    simp [inside, UInt8.toNat_or, Nat.testBit_or]
  · simp [here, Ne.symm here]

theorem testBit_set_mask {r j : Nat} (hr : r < 8) (hj : j < 8) :
    ((0x80 : UInt8) >>> r.toUInt8).toNat.testBit (7 - j) = decide (j = r) := by
  have table : ∀ r < 8, ∀ j < 8, ((0x80 : UInt8) >>> r.toUInt8).toNat.testBit (7 - j) = decide (j = r) := by
    decide
  exact table r hr j hj

theorem testBit_set8_mask {r j : Nat} (hr : r < 8) (hj : j < 8) :
    ((0xFF : UInt8) >>> r.toUInt8).toNat.testBit (7 - j) = decide (r ≤ j) := by
  have table : ∀ r < 8, ∀ j < 8, ((0xFF : UInt8) >>> r.toUInt8).toNat.testBit (7 - j) = decide (r ≤ j) := by
    decide
  exact table r hr j hj

theorem testBit_set8_rest_mask {r j : Nat} (hr : r < 8) (hj : j < 8) :
    (~~~((0xFF : UInt8) >>> r.toUInt8)).toNat.testBit (7 - j) = decide (j < r) := by
  have table : ∀ r < 8, ∀ j < 8, (~~~((0xFF : UInt8) >>> r.toUInt8)).toNat.testBit (7 - j) = decide (j < r) := by
    decide
  exact table r hr j hj

theorem set_spec {bits : bitvec} {pos : Nat} (inside : pos / 8 < bits.length) :
    ∃ bits', bits.set pos = .ok bits' ∧ bits'.length = bits.length ∧
      ∀ p, bitAt bits' p = true ↔ bitAt bits p = true ∨ p = pos := by
  obtain ⟨bits', written, length, bitsAt⟩ := orAt_spec inside (0x80 >>> (pos % 8).toUInt8)
  refine ⟨bits', written, length, fun p => ?_⟩
  rw [bitsAt p, testBit_set_mask (Nat.mod_lt _ (by decide)) (Nat.mod_lt _ (by decide))]
  simp only [Bool.or_eq_true, Bool.and_eq_true, decide_eq_true_eq]
  exact or_congr_right (by omega)

theorem set8_spec {bits : bitvec} {pos : Nat} (inside : pos / 8 + 1 < bits.length) :
    ∃ bits', bits.set8 pos = .ok bits' ∧ bits'.length = bits.length ∧
      ∀ p, bitAt bits' p = true ↔ bitAt bits p = true ∨ (pos ≤ p ∧ p < pos + 8) := by
  obtain ⟨bits₁, first, length₁, bitsAt₁⟩ := orAt_spec (by omega : pos / 8 < bits.length)
    (0xFF >>> (pos % 8).toUInt8)
  obtain ⟨bits₂, second, length₂, bitsAt₂⟩ := orAt_spec (by omega : pos / 8 + 1 < bits₁.length)
    (~~~(0xFF >>> (pos % 8).toUInt8))
  refine ⟨bits₂, by simp [bitvec.set8, first, second], by omega, fun p => ?_⟩
  rw [bitsAt₂ p, bitsAt₁ p, testBit_set8_mask (Nat.mod_lt _ (by decide)) (Nat.mod_lt _ (by decide)),
    testBit_set8_rest_mask (Nat.mod_lt _ (by decide)) (Nat.mod_lt _ (by decide))]
  simp only [Bool.or_eq_true, Bool.and_eq_true, decide_eq_true_eq]
  rw [or_assoc]
  exact or_congr_right (by omega)

/-- The loop of whole bytes marks eight bits a pass. -/
theorem set8Loop_spec (numbits : Nat) :
    ∀ (bits : bitvec) (pc : Nat), pc + numbits < 8 * bits.length →
      ∃ bits', set8Loop bits pc numbits = .ok (bits', pc + 8 * (numbits / 8), numbits % 8) ∧
        bits'.length = bits.length ∧
        ∀ p, bitAt bits' p = true ↔ bitAt bits p = true ∨ (pc ≤ p ∧ p < pc + 8 * (numbits / 8)) := by
  induction numbits using Nat.strongRecOn with
  | ind numbits ih =>
    intro bits pc fits
    by_cases whole : 8 ≤ numbits
    · obtain ⟨rest, rfl⟩ : ∃ rest, numbits = rest + 8 := ⟨numbits - 8, by omega⟩
      obtain ⟨bits₁, marked, length₁, bitsAt₁⟩ := set8_spec (by omega : pc / 8 + 1 < bits.length)
      obtain ⟨bits₂, looped, length₂, bitsAt₂⟩ := ih rest (by omega) bits₁ (pc + 8) (by omega)
      refine ⟨bits₂, ?_, by omega, fun p => ?_⟩
      · rw [set8Loop, marked]
        simp only [Lang.ok_bind, looped]
        congr 3 <;> omega
      · rw [bitsAt₂, bitsAt₁, or_assoc]
        exact or_congr_right (by omega)
    · have few : numbits / 8 = 0 := by omega
      refine ⟨bits, ?_, rfl, fun p => (or_iff_left (by omega)).symm⟩
      rw [few, Nat.mod_eq_of_lt (by omega), Nat.mul_zero, Nat.add_zero]
      rcases numbits with _ | _ | _ | _ | _ | _ | _ | _ | numbits
      all_goals first | rfl | omega

/-- The loop of single bits marks one bit a pass. -/
theorem setLoop_spec (numbits : Nat) :
    ∀ (bits : bitvec) (pc : Nat), pc + numbits < 8 * bits.length →
      ∃ bits', setLoop bits pc numbits = .ok (bits', pc + numbits) ∧ bits'.length = bits.length ∧
        ∀ p, bitAt bits' p = true ↔ bitAt bits p = true ∨ (pc ≤ p ∧ p < pc + numbits) := by
  induction numbits with
  | zero => exact fun bits pc _ => ⟨bits, rfl, rfl, fun p => (or_iff_left (by omega)).symm⟩
  | succ numbits ih =>
    intro bits pc fits
    obtain ⟨bits₁, marked, length₁, bitsAt₁⟩ := set_spec (by omega : pc / 8 < bits.length)
    obtain ⟨bits₂, looped, length₂, bitsAt₂⟩ := ih bits₁ (pc + 1) (by omega)
    refine ⟨bits₂, ?_, by omega, fun p => ?_⟩
    · have moved : pc + 1 + numbits = pc + (numbits + 1) := by omega
      rw [setLoop, marked]
      simp only [Lang.ok_bind, looped, moved]
    · rw [bitsAt₂, bitsAt₁, or_assoc]
      exact or_congr_right (by omega)

/-! ### The bitmap -/

/-- The bitmap after the decoding has reached `pc`: it holds the immediates of
the instructions visited before `pc`. -/
structure Marked (code : List UInt8) (bits : bitvec) (pc : Nat) : Prop where
  length : bits.length = code.length / 8 + 1 + 4
  reached : Reached code pc
  marks : ∀ p, bitAt bits p = true ↔
    ∃ q, Reached code q ∧ q < pc ∧ q < code.length ∧ q < p ∧ p < nextPc code q

/-- The instructions the decoding visits before `nextPc code pc` are those
before `pc`, and `pc`. -/
theorem Reached.lt_nextPc_iff {code : List UInt8} {pc q : Nat} (atPc : Reached code pc) (atQ : Reached code q) :
    q < nextPc code pc ↔ q < pc ∨ q = pc := by
  constructor
  · intro before
    by_contra after
    exact atPc.not_inside atPc.nextPc_le q atQ ⟨by omega, before⟩
  · rintro (before | rfl)
    · exact Nat.lt_trans before (lt_nextPc code pc)
    · exact lt_nextPc code q

/-- Marking the immediates of the instruction at `pc` moves the bitmap past it. -/
theorem Marked.advance {code : List UInt8} {bits bits' : bitvec} {pc : Nat} (marked : Marked code bits pc)
    (inCode : pc < code.length) (length : bits'.length = bits.length)
    (bitsAt : ∀ p, bitAt bits' p = true ↔ bitAt bits p = true ∨ (pc < p ∧ p < nextPc code pc)) :
    Marked code bits' (nextPc code pc) := by
  refine ⟨length.trans marked.length, marked.reached.next inCode, fun p => ?_⟩
  rw [bitsAt, marked.marks]
  constructor
  · rintro (⟨q, atQ, before, inQ, after, within⟩ | ⟨after, within⟩)
    · exact ⟨q, atQ, (marked.reached.lt_nextPc_iff atQ).mpr (.inl before), inQ, after, within⟩
    · exact ⟨pc, marked.reached, lt_nextPc code pc, inCode, after, within⟩
  · rintro ⟨q, atQ, before, inQ, after, within⟩
    rcases (marked.reached.lt_nextPc_iff atQ).mp before with earlier | rfl
    · exact .inl ⟨q, atQ, earlier, inQ, after, within⟩
    · exact .inr ⟨after, within⟩

/-- A pass over a `PUSHn` marks its `n` immediates, whole bytes first. -/
theorem Marked.push {code : List UInt8} {bits : bitvec} {pc : Nat} (marked : Marked code bits pc)
    {op : OpCode} (atPc : code[pc]? = some op) (push : PUSH1 ≤ op ∧ op ≤ PUSH32) :
    ∃ bits₁ pc₁ numbits, set8Loop bits (pc + 1) (op - PUSH1 + 1).toNat = .ok (bits₁, pc₁, numbits) ∧
      ∃ bits₂, setLoop bits₁ pc₁ numbits = .ok (bits₂, nextPc code pc) ∧
        Marked code bits₂ (nextPc code pc) := by
  have inCode : pc < code.length := (List.getElem?_eq_some_iff.mp atPc).1
  have width : nextPc code pc = pc + 1 + (op - PUSH1 + 1).toNat := by
    simp [nextPc, List.getD_eq_getElem?_getD, atPc, pushWidth, push]
  have bounded := pushWidth_le op
  simp only [pushWidth, if_pos push] at bounded
  -- The immediates end at most 32 bytes past the code, inside the four bytes of slack.
  have fits : pc + 1 + (op - PUSH1 + 1).toNat < 8 * bits.length := by
    rw [marked.length]
    omega
  obtain ⟨bits₁, looped₁, length₁, bitsAt₁⟩ := set8Loop_spec _ bits (pc + 1) fits
  obtain ⟨bits₂, looped₂, length₂, bitsAt₂⟩ := setLoop_spec ((op - PUSH1 + 1).toNat % 8) bits₁
    (pc + 1 + 8 * ((op - PUSH1 + 1).toNat / 8)) (by omega)
  have moved : pc + 1 + 8 * ((op - PUSH1 + 1).toNat / 8) + (op - PUSH1 + 1).toNat % 8 = nextPc code pc := by
    rw [width]
    omega
  refine ⟨bits₁, _, _, looped₁, bits₂, by rw [looped₂, moved], ?_⟩
  refine marked.advance inCode (length₂.trans length₁) fun p => ?_
  rw [bitsAt₂, bitsAt₁, or_assoc]
  exact or_congr_right (by omega)

/-- A pass over any other opcode moves on by one byte. -/
theorem Marked.plain {code : List UInt8} {bits : bitvec} {pc : Nat} (marked : Marked code bits pc)
    {op : OpCode} (atPc : code[pc]? = some op) (plain : ¬ (PUSH1 ≤ op ∧ op ≤ PUSH32)) :
    pc + 1 = nextPc code pc ∧ Marked code bits (nextPc code pc) := by
  have inCode : pc < code.length := (List.getElem?_eq_some_iff.mp atPc).1
  have width : nextPc code pc = pc + 1 := by
    simp [nextPc, List.getD_eq_getElem?_getD, atPc, pushWidth, plain]
  exact ⟨width.symm, marked.advance inCode rfl fun p => (or_iff_left (by omega)).symm⟩

/-- The loop of `codeBitmap` with fuel for what is left of the code: it ends
without writing outside the bitmap, and the bitmap holds the immediates of
every instruction the decoding visits. -/
theorem codeBitmapLoop_spec (code : List UInt8) (fuel : Nat) :
    ∀ (bits : bitvec) (pc : Nat), Marked code bits pc → code.length ≤ pc + fuel →
      ∃ bits', codeBitmapLoop code fuel bits pc = .ok bits' ∧
        bits'.length = code.length / 8 + 1 + 4 ∧
        ∀ p, bitAt bits' p = true ↔ InPushData code p := by
  -- At the end of the code every visited instruction is before `pc`.
  have finished : ∀ bits pc, Marked code bits pc → code.length ≤ pc →
      ∀ p, bitAt bits p = true ↔ InPushData code p := by
    intro bits pc marked past p
    rw [marked.marks]
    constructor
    · rintro ⟨q, atQ, _, inQ, after, within⟩
      exact ⟨q, atQ, inQ, after, within⟩
    · rintro ⟨q, atQ, inQ, after, within⟩
      exact ⟨q, atQ, by omega, inQ, after, within⟩
  induction fuel with
  | zero =>
    intro bits pc marked past
    exact ⟨bits, rfl, marked.length, finished bits pc marked (by omega)⟩
  | succ fuel ih =>
    intro bits pc marked enough
    have moves := lt_nextPc code pc
    cases atPc : code[pc]? with
    | none =>
      have past : code.length ≤ pc := by simpa using atPc
      exact ⟨bits, by simp [codeBitmapLoop, atPc], marked.length, finished bits pc marked past⟩
    | some op =>
      by_cases push : PUSH1 ≤ op ∧ op ≤ PUSH32
      · obtain ⟨bits₁, pc₁, numbits, looped₁, bits₂, looped₂, marked₂⟩ := marked.push atPc push
        obtain ⟨bits', looped, rest⟩ := ih bits₂ _ marked₂ (by omega)
        refine ⟨bits', ?_, rest⟩
        simp only [codeBitmapLoop, atPc, if_pos push]
        rw [looped₁]
        simp only [Lang.ok_bind, looped₂, looped]
      · obtain ⟨moved, marked'⟩ := marked.plain atPc push
        obtain ⟨bits', looped, rest⟩ := ih bits _ marked' (by omega)
        exact ⟨bits', by simp [codeBitmapLoop, atPc, push, moved, looped], rest⟩

/-- `codeSegment` reads the bit of a position inside the bitmap. -/
theorem codeSegment_eq {bits : bitvec} {pos : Nat} (inside : pos / 8 < bits.length) :
    bits.codeSegment pos = .ok (!bitAt bits pos) := by
  have mask : ∀ r < 8, ((0x80 : UInt8) >>> r.toUInt8).toNat = 2 ^ (7 - r) := by decide
  have clear : (bits[pos / 8] &&& 0x80 >>> (pos % 8).toUInt8) = 0 ↔
      (bits[pos / 8]).toNat.testBit (7 - pos % 8) = false := by
    rw [← UInt8.toNat_inj, UInt8.toNat_and, mask _ (Nat.mod_lt _ (by decide)), Nat.and_two_pow]
    cases (bits[pos / 8]).toNat.testBit (7 - pos % 8) <;> simp
  simp only [bitvec.codeSegment, List.getElem?_eq_getElem inside, bitAt,
    List.getD_eq_getElem?_getD, Option.getD_some, Except.ok.injEq]
  rw [Bool.eq_iff_iff]
  simpa only [beq_iff_eq, Bool.not_eq_true'] using clear

theorem codeBitmap_marks_push_data (code : List UInt8) :
    ∃ bits, codeBitmap code = .ok bits ∧ bits.length = code.length / 8 + 1 + 4 ∧
      ∀ pc < code.length, ∃ segment, bits.codeSegment pc = .ok segment ∧
        (segment = false ↔ InPushData code pc) := by
  have start : Marked code (List.replicate (code.length / 8 + 1 + 4) 0) 0 := by
    refine ⟨by simp, .start, fun p => ?_⟩
    by_cases inside : p / 8 < code.length / 8 + 1 + 4 <;>
      simp [bitAt, List.getD_eq_getElem?_getD, inside]
  obtain ⟨bits, built, length, marks⟩ := codeBitmapLoop_spec code code.length _ 0 start (by omega)
  refine ⟨bits, built, length, fun pc inCode => ⟨_, codeSegment_eq (by omega), ?_⟩⟩
  rw [← marks pc]
  simp

end Ebakus.Core.Vm
