import Mathlib.Data.UInt
import Mathlib.Tactic.Common

/-!
# Segment descriptors

How the processor reads the eight bytes of a descriptor : 32 bits of base and 20 bits of limit,
scattered over seven of them. If the granularity bit is set the limit counts pages.
-/

namespace X86

/-- What a descriptor says of its segment. -/
structure Segment where
  base : ℕ
  limit : ℕ
  access : UInt8

/-- The limit of 20 bits, from three bytes of which the last holds flags as well. -/
def rawLimit (b₀ b₁ b₆ : UInt8) : ℕ := b₀.toNat + b₁.toNat * 256 + b₆.toNat % 16 * 65536

/-- The limit in bytes. -/
def scaledLimit (b₀ b₁ b₆ : UInt8) : ℕ :=
  if b₆.toNat.testBit 7 then rawLimit b₀ b₁ b₆ <<< 12 ||| 0xFFF else rawLimit b₀ b₁ b₆

/-- The descriptor at `a`. -/
def segmentAt (m : ℕ → UInt8) (a : ℕ) : Segment where
  base := (m (a + 2)).toNat + (m (a + 3)).toNat * 256 + (m (a + 4)).toNat * 65536 +
    (m (a + 7)).toNat * 16777216
  limit := scaledLimit (m a) (m (a + 1)) (m (a + 6))
  access := m (a + 5)

variable {m m' : ℕ → UInt8} {a : ℕ} {x : UInt32} {flags : UInt8}

/-- A descriptor is made of its eight bytes. -/
theorem segmentAt_congr (h : ∀ i < 8, m' (a + i) = m (a + i)) : segmentAt m' a = segmentAt m a := by
  have h₀ : m' a = m a := h 0 (by decide)
  simp only [segmentAt, h₀, h 1 (by decide), h 2 (by decide), h 3 (by decide), h 4 (by decide),
    h 5 (by decide), h 6 (by decide), h 7 (by decide)]

/-! ## The parts of a word -/

theorem toNat_lowByte (x : UInt32) : (x &&& 0xFF).toUInt8.toNat = x.toNat % 256 := by
  rw [UInt32.toNat_toUInt8, UInt32.toNat_and]
  change (x.toNat &&& (2 ^ 8 - 1)) % 2 ^ 8 = x.toNat % 2 ^ 8
  rw [Nat.and_two_pow_sub_one_eq_mod, Nat.mod_mod]

theorem toNat_lowNibble (x : UInt32) : (x &&& 0x0F).toUInt8.toNat = x.toNat % 16 := by
  rw [UInt32.toNat_toUInt8, UInt32.toNat_and]
  change (x.toNat &&& (2 ^ 4 - 1)) % 2 ^ 8 = x.toNat % 2 ^ 4
  rw [Nat.and_two_pow_sub_one_eq_mod]
  omega

theorem toNat_shiftRight {k : UInt32} {n : ℕ} (hn : 2 ^ (k.toNat % 32) = n) (x : UInt32) :
    (x >>> k).toNat = x.toNat / n := by
  rw [UInt32.toNat_shiftRight, Nat.shiftRight_eq_div_pow, hn]

theorem toNat_shiftRight_8 (x : UInt32) : (x >>> 8).toNat = x.toNat / 256 :=
  toNat_shiftRight rfl x

theorem toNat_shiftRight_16 (x : UInt32) : (x >>> 16).toNat = x.toNat / 65536 :=
  toNat_shiftRight rfl x

/-- The four bytes of a word give it back. -/
theorem word_of_bytes (x : UInt32) : (x &&& 0xFF).toUInt8.toNat +
    (x >>> 8 &&& 0xFF).toUInt8.toNat * 256 + (x >>> 16 &&& 0xFF).toUInt8.toNat * 65536 +
    (x >>> 24 &&& 0xFF).toUInt8.toNat * 16777216 = x.toNat := by
  have hx := x.toNat_lt
  have h₂₄ : (x >>> 24).toNat = x.toNat / 16777216 := toNat_shiftRight rfl x
  simp only [toNat_lowByte, toNat_shiftRight_8, toNat_shiftRight_16, h₂₄]
  omega

/-! ## Limits -/

/-- A limit of 20 bits is read back under any flags. -/
theorem rawLimit_bytes (hf : flags.toNat % 16 = 0) (hx : x.toNat < 1048576) :
    rawLimit (x &&& 0xFF).toUInt8 (x >>> 8 &&& 0xFF).toUInt8
      (flags ||| (x >>> 16 &&& 0x0F).toUInt8) = x.toNat := by
  have hor : (flags ||| (x >>> 16 &&& 0x0F).toUInt8).toNat % 16 = x.toNat / 65536 % 16 := by
    rw [UInt8.toNat_or, toNat_lowNibble, toNat_shiftRight_16]
    change (flags.toNat ||| x.toNat / 65536 % 16) % 2 ^ 4 = _
    rw [Nat.or_mod_two_pow, show flags.toNat % 2 ^ 4 = 0 from hf, Nat.zero_or, Nat.mod_mod]
  rw [rawLimit, hor, toNat_lowByte, toNat_lowByte, toNat_shiftRight_8]
  omega

/-- The granularity bit is one of the flags. -/
theorem scaledLimit_bytes (hf : flags.toNat % 16 = 0) (hx : x.toNat < 1048576) :
    scaledLimit (x &&& 0xFF).toUInt8 (x >>> 8 &&& 0xFF).toUInt8
      (flags ||| (x >>> 16 &&& 0x0F).toUInt8) =
      if flags.toNat.testBit 7 then x.toNat * 4096 + 4095 else x.toNat := by
  have hnibble : (x.toNat / 65536 % 16).testBit 7 = false := Nat.testBit_lt_two_pow (by omega)
  have hbit : (flags ||| (x >>> 16 &&& 0x0F).toUInt8).toNat.testBit 7 = flags.toNat.testBit 7 := by
    rw [UInt8.toNat_or, toNat_lowNibble, toNat_shiftRight_16, Nat.testBit_or, hnibble,
      Bool.or_false]
  rw [scaledLimit, hbit, rawLimit_bytes hf hx,
    ← Nat.shiftLeft_add_eq_or_of_lt (show 0xFFF < 2 ^ 12 by decide), Nat.shiftLeft_eq]

end X86
