import Mathlib.Data.Nat.Digits.Lemmas
import Mathlib.Data.UInt
import Mathlib.Tactic.Common

/-!
# Decimal numerals

The decimal numeral of an integer as a string of bytes, and what such a string is read as. A
canonical numeral has no leading zero and no minus in front of a zero, and an integer has one
canonical numeral (`Canonical.eq_numeral`).
-/

namespace Numeral

/-- The character of the digit `d`. -/
def digitChar (d : ℕ) : UInt8 := UInt8.ofNat (48 + d)

/-- The digits of `n`, none for 0. -/
def digits (n : ℕ) : List UInt8 := ((Nat.digits 10 n).map digitChar).reverse

/-- The numeral of an integer. -/
def numeral (i : Int) : List UInt8 :=
  (if i < 0 then [45] else []) ++ if i = 0 then [48] else digits i.natAbs

/-- The digit that a character stands for. -/
def digitValue (c : UInt8) : Option ℕ := if 48 ≤ c ∧ c ≤ 57 then some (c.toNat - 48) else none

/-- The number that digits stand for. -/
def parseDigits (s : List UInt8) : Option ℕ :=
  s.foldlM (fun v c => (digitValue c).map fun d => 10 * v + d) 0

/-- The integer that a numeral stands for : digits, perhaps behind a minus. -/
def parse : List UInt8 → Option Int
  | [] => none
  | c :: s =>
    if c = 45 then if s = [] then none else (parseDigits s).map fun v : ℕ => -(v : Int)
    else (parseDigits (c :: s)).map fun v : ℕ => (v : Int)

/-- No leading zero, and no minus in front of a zero. -/
structure Canonical (s : List UInt8) : Prop where
  zero_alone : ∀ t, s = 48 :: t → t = []
  minus : ∀ t, s ≠ 45 :: 48 :: t

variable {n v d : ℕ} {i : Int} {c : UInt8} {s t : List UInt8}

/-! ## Digits -/

/-- Digits are read back. -/
theorem digitValue_digitChar (hd : d < 10) : digitValue (digitChar d) = some d := by
  interval_cases d <;> rfl

/-- No digit is NUL. -/
theorem digitChar_ne_zero (hd : d < 10) : digitChar d ≠ 0 := by
  interval_cases d <;> decide

/-- Only 0 has the character 0. -/
theorem digitChar_eq_zero_iff (hd : d < 10) : digitChar d = 48 ↔ d = 0 := by
  interval_cases d <;> decide

/-- No digit is the sign. -/
theorem digitChar_ne_minus (hd : d < 10) : digitChar d ≠ 45 := by
  interval_cases d <;> decide

/-- Only the character of a digit has its value. -/
theorem eq_digitChar (h : digitValue c = some d) : d < 10 ∧ c = digitChar d := by
  unfold digitValue at h
  split_ifs at h with hc
  obtain ⟨hlo, hhi⟩ := hc
  rw [UInt8.le_iff_toNat_le] at hlo hhi
  change 48 ≤ c.toNat at hlo
  change c.toNat ≤ 57 at hhi
  cases h
  refine ⟨by omega, ?_⟩
  rw [digitChar, show 48 + (c.toNat - 48) = c.toNat by omega, UInt8.ofNat_toNat]

@[simp] theorem digits_zero : digits 0 = [] := rfl

/-- Only 0 has no digits. -/
theorem digits_eq_nil_iff : digits n = [] ↔ n = 0 := by
  rw [digits, List.reverse_eq_nil_iff, List.map_eq_nil_iff, Nat.digits_eq_nil_iff_eq_zero]

/-- The last digit is the remainder, the digits before it those of the quotient. -/
theorem digits_of_pos (h : 0 < n) : digits n = digits (n / 10) ++ [digitChar (n % 10)] := by
  rw [digits, Nat.digits_def' (by decide) h, List.map_cons, List.reverse_cons]
  rfl

/-- A number below `10 ^ k` has at most `k` digits. -/
theorem length_digits_le {k : ℕ} (h : n < 10 ^ k) : (digits n).length ≤ k := by
  rw [digits, List.length_reverse, List.length_map]
  exact (Nat.digits_length_le_iff (by decide) n).mpr h

/-- The first digit is neither a zero nor a minus. -/
theorem digits_eq_cons (h : digits n = c :: s) : c ≠ 48 ∧ c ≠ 45 := by
  have hn : n ≠ 0 := fun h₀ => by
    rw [h₀] at h
    cases h
  have hmem : c ∈ (digits n).head? := by
    rw [h]
    rfl
  rw [digits, List.head?_reverse, List.getLast?_map, Option.mem_def,
    List.getLast?_eq_getLast_of_ne_nil (Nat.digits_ne_nil_iff_ne_zero.mpr hn)] at hmem
  cases hmem
  have hlt := Nat.digits_lt_base (by decide : 1 < 10)
    (List.getLast_mem (Nat.digits_ne_nil_iff_ne_zero.mpr hn))
  exact ⟨fun h₀ => Nat.getLast_digit_ne_zero 10 hn ((digitChar_eq_zero_iff hlt).mp h₀),
    digitChar_ne_minus hlt⟩

/-! ## Reading digits -/

/-- A last digit counts once, those before it ten times. -/
theorem parseDigits_concat : parseDigits (s ++ [c]) =
    (parseDigits s).bind fun v => (digitValue c).map fun d => 10 * v + d := by
  rw [parseDigits, List.foldlM_append]
  simp [parseDigits, List.foldlM]

/-- The digits of a number are read back. -/
theorem parseDigits_digits (n : ℕ) : parseDigits (digits n) = some n := by
  induction n using Nat.strong_induction_on with
  | _ n ih =>
    rcases Nat.eq_zero_or_pos n with rfl | hpos
    · rfl
    · rw [digits_of_pos hpos, parseDigits_concat, ih (n / 10) (by omega),
        digitValue_digitChar (Nat.mod_lt n (by decide))]
      exact congrArg some (Nat.div_add_mod n 10)

/-- Digits that do not begin with a zero are those of the number they stand for. -/
theorem eq_digits (hs : parseDigits s = some v) (hzero : ∀ t, s ≠ 48 :: t) : s = digits v := by
  induction s using List.reverseRecOn generalizing v with
  | nil =>
    cases hs
    rfl
  | append_singleton s c ih =>
    rw [parseDigits_concat, Option.bind_eq_some_iff] at hs
    obtain ⟨w, hw, hc⟩ := hs
    obtain ⟨d, hd, rfl⟩ := Option.map_eq_some_iff.mp hc
    obtain ⟨hlt, rfl⟩ := eq_digitChar hd
    have hs : s = digits w := ih hw fun t ht => hzero (t ++ [digitChar d]) (by rw [ht]; rfl)
    have hpos : 0 < 10 * w + d := by
      rcases Nat.eq_zero_or_pos w with rfl | hw'
      · rw [hs, digits_zero] at hzero
        have hd₀ := (not_congr (digitChar_eq_zero_iff hlt)).mp fun h₀ => hzero [] (by rw [h₀]; rfl)
        omega
      · omega
    rw [digits_of_pos hpos, show (10 * w + d) / 10 = w by omega,
      show (10 * w + d) % 10 = d by omega, hs]

/-! ## Numerals -/

/-- A negative number has the sign. -/
theorem numeral_of_neg (h : i < 0) : numeral i = 45 :: digits i.natAbs := by
  rw [numeral, if_pos h, if_neg h.ne]
  rfl

/-- A positive number has none. -/
theorem numeral_of_pos (h : 0 < i) : numeral i = digits i.natAbs := by
  rw [numeral, if_neg (by omega), if_neg h.ne']
  rfl

/-- A numeral is read as its integer. -/
theorem parse_numeral (i : Int) : parse (numeral i) = some i := by
  rcases Int.lt_trichotomy i 0 with hneg | rfl | hpos
  · have hne : digits i.natAbs ≠ [] := fun h => by
      have := digits_eq_nil_iff.mp h
      omega
    rw [numeral_of_neg hneg, parse, if_pos rfl, if_neg hne, parseDigits_digits, Option.map_some]
    exact congrArg some (by omega)
  · rfl
  · rw [numeral_of_pos hpos]
    cases hs : digits i.natAbs with
    | nil =>
      have := digits_eq_nil_iff.mp hs
      omega
    | cons c s =>
      rw [parse, if_neg (digits_eq_cons hs).2, ← hs, parseDigits_digits, Option.map_some]
      exact congrArg some (by omega)

/-- The numeral of an integer is canonical. -/
theorem canonical_numeral (i : Int) : Canonical (numeral i) := by
  rcases Int.lt_trichotomy i 0 with hneg | rfl | hpos
  · rw [numeral_of_neg hneg]
    refine ⟨fun t ht => ?_, fun t ht => ?_⟩
    · cases ht
    · exact (digits_eq_cons (List.cons.inj ht).2).1 rfl
  · refine ⟨fun t ht => ?_, fun t ht => ?_⟩
    · exact (List.cons.inj ht).2.symm
    · cases ht
  · rw [numeral_of_pos hpos]
    exact ⟨fun t ht => absurd rfl (digits_eq_cons ht).1, fun t ht => (digits_eq_cons ht).2 rfl⟩

/-- The canonical numeral of an integer is unique. -/
theorem Canonical.eq_numeral (h : Canonical s) (hs : parse s = some i) : s = numeral i := by
  cases s with
  | nil => cases hs
  | cons c s =>
    rw [parse] at hs
    split_ifs at hs with hminus hnil
    · obtain ⟨v, hv, rfl⟩ := Option.map_eq_some_iff.mp hs
      have hdigits : s = digits v := eq_digits hv fun t ht => h.minus t (by rw [hminus, ht])
      have hne : v ≠ 0 := fun h₀ => hnil (by rw [hdigits, h₀, digits_zero])
      rw [numeral_of_neg (by omega), Int.natAbs_neg, Int.natAbs_natCast, hminus, hdigits]
    · obtain ⟨v, hv, rfl⟩ := Option.map_eq_some_iff.mp hs
      by_cases hzero : c = 48
      · rw [hzero, h.zero_alone s (by rw [hzero])] at hv ⊢
        cases hv
        rfl
      · have hdigits : c :: s = digits v := eq_digits hv fun t ht => hzero (List.cons.inj ht).1
        have hne : v ≠ 0 := fun h₀ => by
          rw [h₀] at hdigits
          cases hdigits
        rw [numeral_of_pos (by omega), Int.natAbs_natCast, hdigits]

end Numeral
