import Mathlib.Data.Int.Basic
import Mathlib.Tactic.Common

/-!
# 32-bit words

An `unsigned int` or a pointer is a natural number below `2 ^ 32`, an `int` an
integer. `asUnsigned` and `asSigned` are the conversions between the two readings of
one word, and `wrapInt` is what is left in an `int` of an exact result.
-/

/-- An integer converted to `unsigned int`. -/
def asUnsigned (i : Int) : Nat := (i % 4294967296).toNat

/-- The word `n` read as an `int`. -/
def asSigned (n : Nat) : Int :=
  if n % 4294967296 < 2147483648 then (n % 4294967296 : Nat)
  else (n % 4294967296 : Nat) - 4294967296

/-- The exact integer `i` stored in an `int`. -/
def wrapInt (i : Int) : Int := asSigned (asUnsigned i)

theorem asUnsigned_lt (i : Int) : asUnsigned i < 4294967296 := by
  unfold asUnsigned
  omega

/-- The lower half of the words are their own values. -/
theorem asSigned_of_lt {n : Nat} (h : n < 2147483648) : asSigned n = n := by
  unfold asSigned
  omega

/-- Within the range nothing wraps. -/
theorem wrapInt_of_range {i : Int} (h : -2147483648 ≤ i) (h' : i < 2147483648) :
    wrapInt i = i := by
  unfold wrapInt asSigned asUnsigned
  omega

/-- A wrapped integer is in the range. -/
theorem wrapInt_bounds (i : Int) : -2147483648 ≤ wrapInt i ∧ wrapInt i < 2147483648 := by
  unfold wrapInt asSigned asUnsigned
  omega

/-- It does not matter when a sum is wrapped. -/
theorem wrapInt_wrapInt_add (i j : Int) : wrapInt (wrapInt i + j) = wrapInt (i + j) := by
  unfold wrapInt asSigned asUnsigned
  omega

/-- One step further on, and `j` steps from there. -/
theorem wrapInt_wrapInt_step (i size : Int) (j : Nat) :
    wrapInt (wrapInt (i + size) + j * size) = wrapInt (i + (j + 1 : Nat) * size) := by
  rw [wrapInt_wrapInt_add, Int.natCast_add, Int.natCast_one, Int.add_mul, Int.one_mul,
    Int.add_assoc, Int.add_comm size]

theorem wrapInt_wrapInt (i : Int) : wrapInt (wrapInt i) = wrapInt i := by
  simpa using wrapInt_wrapInt_add i 0

theorem wrapInt_asSigned (n : Nat) : wrapInt (asSigned n) = asSigned n := by
  unfold wrapInt asSigned asUnsigned
  omega

/-- A word is its own value. -/
theorem asUnsigned_natCast {n : Nat} (h : n < 4294967296) : asUnsigned n = n := by
  unfold asUnsigned
  omega
