import Hyperion.Config

/-!
# Strings

The functions of `string.c` that the loader and the file system use. A string is the list
of its characters, without the NUL that ends it.
-/

namespace Hyperion

/-- The character at index `i`. -/
def charAt (s : List UInt8) (i : ℕ) : UInt8 := s.getD i 0

/-- `c` as a `char`, which is signed. -/
def tolower (c : UInt8) : UInt8 := if 65 ≤ c ∧ c ≤ 90 then c + 32 else c

/-- `strnlen` of `string.c`. -/
def strnlen (s : List UInt8) (maxlen : ℕ) : ℕ := min s.length maxlen

/-- `isdigit`, for ASCII. -/
def isdigit (c : UInt8) : Bool := 48 ≤ c ∧ c ≤ 57

/-- `tonumericdigit`, which is not bounded. -/
def tonumericdigit (c : UInt8) : Int := (c.toNat : Int) - 48

/-- `fuel` rounds of the loop of `strncmp` from index `i` on. -/
def strncmpLoop (s₁ s₂ : List UInt8) : (fuel i : ℕ) → Int
  | 0, _ => 0
  | fuel + 1, i =>
    let u₁ := charAt s₁ i
    let u₂ := charAt s₂ i
    if u₁ ≠ u₂ then (u₁.toNat : Int) - u₂.toNat
    else if u₁ = 0 then 0
    else strncmpLoop s₁ s₂ fuel (i + 1)

/-- `strncmp` : 0, or the difference of the first two characters that differ. -/
def strncmp (s₁ s₂ : List UInt8) (n : ℕ) : Int := strncmpLoop s₁ s₂ n 0

/-- `fuel` rounds of the loop of `istrncmp` from index `i` on. -/
def istrncmpLoop (s₁ s₂ : List UInt8) : (fuel i : ℕ) → Int
  | 0, _ => 0
  | fuel + 1, i =>
    let u₁ := charAt s₁ i
    let u₂ := charAt s₂ i
    if u₁ ≠ u₂ ∧ tolower u₁ ≠ tolower u₂ then (u₁.toNat : Int) - u₂.toNat
    else if u₁ = 0 then 0
    else istrncmpLoop s₁ s₂ fuel (i + 1)

/-- `istrncmp`, the same up to the case of letters. -/
def istrncmp (s₁ s₂ : List UInt8) (n : ℕ) : Int := istrncmpLoop s₁ s₂ n 0

end Hyperion
