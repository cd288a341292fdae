/-
# Bit sets as natural numbers

Go code that keeps a set of bit positions in a `big.Int` adds positions with
`Or` and tests a set of them with `And` and a comparison. Over the natural
numbers a set is a number, and `Covers y x` says that `y` has every bit of
`x`. Every test of the form `y & x == x` is a question about `Covers`
(`land_eq_iff_covers`), and a set built by or-ing values along a list covers
each of them (`covers_foldl_of_mem`): the reason a filter made that way never
misses a value that was put in.
-/

import Mathlib.Data.Nat.Bitwise

namespace Ebakus.Lang

/-- `y` has every bit of `x`. -/
def Covers (y x : Nat) : Prop :=
  ∀ i, x.testBit i = true → y.testBit i = true

namespace Covers

theorem refl (x : Nat) : Covers x x :=
  fun _ set => set

theorem trans {x y z : Nat} (outer : Covers z y) (inner : Covers y x) : Covers z x :=
  fun i set => outer i (inner i set)

theorem lor_left (x y : Nat) : Covers (x ||| y) x := by
  intro i set
  rw [Nat.testBit_lor, set, Bool.true_or]

theorem lor_right (x y : Nat) : Covers (x ||| y) y := by
  intro i set
  rw [Nat.testBit_lor, set, Bool.or_true]

end Covers

/-- `y & x == x` asks whether `y` covers `x`. -/
theorem land_eq_iff_covers (y x : Nat) : y &&& x = x ↔ Covers y x := by
  constructor
  · intro same i set
    have both := Nat.testBit_land y x i
    rw [same, set, Bool.and_true] at both
    exact both.symm
  · intro covers
    apply Nat.eq_of_testBit_eq
    intro i
    rw [Nat.testBit_land]
    cases set : x.testBit i
    · exact Bool.and_false _
    · rw [covers i set, Bool.true_and]

section Folds

variable {α : Type} {g : Nat → α → Nat}

/-- A fold whose step only adds bits keeps the bits it starts from. -/
theorem covers_foldl (grows : ∀ bin x, Covers (g bin x) bin) :
    ∀ (l : List α) (acc : Nat), Covers (l.foldl g acc) acc
  | [], _ => Covers.refl _
  | x :: l, acc => (covers_foldl grows l (g acc x)).trans (grows acc x)

/-- A fold whose step only adds bits has every bit that one of its steps adds. -/
theorem covers_foldl_of_mem (grows : ∀ bin x, Covers (g bin x) bin) {l : List α} {x : α} (mem : x ∈ l)
    {v : Nat} (adds : ∀ bin, Covers (g bin x) v) (acc : Nat) : Covers (l.foldl g acc) v := by
  induction l generalizing acc with
  | nil => exact absurd mem List.not_mem_nil
  | cons y l ih =>
    rw [List.foldl_cons]
    rcases List.mem_cons.mp mem with rfl | later
    · exact (covers_foldl grows l _).trans (adds acc)
    · exact ih later _

end Folds

/-- A fold whose steps keep a set of bits below `n` gives a set of bits below `n`. -/
theorem foldl_lt_two_pow {α : Type} {n : Nat} {g : Nat → α → Nat}
    (step : ∀ bin x, bin < 2 ^ n → g bin x < 2 ^ n) :
    ∀ (l : List α) {acc : Nat}, acc < 2 ^ n → l.foldl g acc < 2 ^ n
  | [], _, start => start
  | x :: l, acc, start => foldl_lt_two_pow step l (step acc x start)

end Ebakus.Lang
