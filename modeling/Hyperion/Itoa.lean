import Hyperion.Lib.CString
import Hyperion.Lib.Numeral
import Hyperion.Lib.Partial

/-!
# Numbers as text

`itoa` of the programs' library turns an `int` into characters. It works on the number or its
negative, whichever is not positive, and fills a static buffer of twelve bytes from the end. For
every `int` the canonical numeral is left in the buffer (`itoa_numeral`).

An operation on `int` that overflows has no defined result (`intResult`), and a store outside the
buffer has none either, so that the result itself says that neither happens. Working on the number
that is not positive is what makes the least `int` come out right, whose negative is no `int`.
`Written` is the invariant : from `loc` on the buffer holds the characters so far.
`itoaLoop_meets` is the loop, by induction on the number, one digit a round. A numeral has at most
ten digits and a sign.
-/

namespace Hyperion

open Partial CString Numeral

/-- The static buffer of `itoa`. -/
structure ItoaText where
  /-- The bytes of `text`, by index. -/
  text : Int → UInt8
  /-- History : the indices stored to. No function reads it. -/
  stores : List Int

abbrev ItoaM := Prog ItoaText

/-- Before the first call. -/
def ItoaText.start (text : Int → UInt8) : ItoaText := ⟨text, []⟩

/-! ## `stdlib.c` -/

/-- The `int` that an operation gives. A signed overflow has no defined result. -/
def intResult (x : Int) : ItoaM Int :=
  if -2147483648 ≤ x ∧ x < 2147483648 then pure x else fault

/-- `text[loc] = c`, with `c` converted to `char`. -/
def storeText (loc c : Int) : ItoaM Unit := modify fun t => { t with
  text := fun x => if x = loc then UInt8.ofInt c else t.text x
  stores := t.stores ++ [loc] }

/-- `text[--loc] = c`. -/
def storeDown (loc c : Int) : ItoaM Int := do
  let loc ← intResult (loc - 1)
  storeText loc c
  return loc

/-- The loop of `itoa`, `fuel` rounds. -/
def itoaLoop : (fuel : ℕ) → (i loc : Int) → ItoaM Int
  | 0, _, _ => fault
  | fuel + 1, i, loc =>
    if i ≠ 0 then do
      let digit ← intResult (i.tmod 10)
      let c ← intResult (48 - digit)
      let loc ← storeDown loc c
      let i ← intResult (i.tdiv 10)
      itoaLoop fuel i loc
    else return loc

/-- `itoa` behind its first `if`. -/
def itoaMirrored (neg : Bool) (i : Int) : ItoaM Int := do
  let loc ← itoaLoop (i.natAbs + 1) i 11
  let loc ← if loc = 11 then storeDown loc 48 else pure loc
  if neg then storeDown loc 45 else pure loc

/-- The result is the index of the first character. -/
def itoa (i : Int) : ItoaM Int := do
  storeText 11 0
  if 0 ≤ i then
    let i ← intResult (-i)
    itoaMirrored false i
  else itoaMirrored true i

/-! ## The buffer from the end -/

/-- From `loc` on the buffer holds `s` up to its last byte, and no store was out of it. -/
structure Written (t : ItoaText) (loc : Int) (s : List UInt8) : Prop where
  string : StringIn (fun x : ℕ => t.text (loc + x)) 0 s
  length : loc + s.length = 11
  stores : ∀ x ∈ t.stores, 0 ≤ x ∧ x ≤ 11

section Written

variable {r : Prop} {t t' : ItoaText} {i loc c : Int} {s : List UInt8} {n : ℕ}

theorem intResult_meets {Q : Int → ItoaText → Prop} (hlo : -2147483648 ≤ i)
    (hhi : i < 2147483648) (h : Q i t) : Meets r (intResult i) t Q := by
  rw [intResult, if_pos ⟨hlo, hhi⟩]
  exact Meets.pure_iff.mpr h

/-- The NUL at the end. -/
theorem storeText_end (h : ∀ x ∈ t.stores, 0 ≤ x ∧ x ≤ 11) :
    Meets r (storeText 11 0) t fun _ t' => Written t' 11 [] := by
  refine Meets.modify_iff.mpr ⟨⟨fun _ hc => absurd hc List.not_mem_nil, fun x hx => ?_⟩, rfl,
    fun x hx => ?_⟩
  · obtain rfl : x = 0 := by simpa using hx
    rfl
  · rcases List.mem_append.mp hx with hx | hx
    · exact h x hx
    · rw [List.mem_singleton.mp hx]
      decide

/-- One more character in front. -/
theorem Written.storeDown (h : Written t loc s) (hlen : s.length < 11)
    (hc : UInt8.ofInt c ≠ 0) :
    Meets r (storeDown loc c) t fun loc' t' => Written t' loc' (UInt8.ofInt c :: s) := by
  have hloc := h.length
  rw [Hyperion.storeDown]
  refine .bind (Q := fun loc' t' => loc' = loc - 1 ∧ t' = t)
    (intResult_meets (by omega) (by omega) ⟨rfl, rfl⟩) ?_
  rintro _ _ ⟨rfl, rfl⟩
  refine Meets.bind_iff.mpr (Meets.modify_iff.mpr (Meets.pure_iff.mpr ⟨?_, ?_, fun x hx => ?_⟩))
  · refine .cons hc (if_pos (by simp)) ?_
    refine ⟨h.string.ne_zero, fun x hx => ?_⟩
    have hbyte := h.string.byte x hx
    show (if loc - 1 + ((0 + 1 + x : ℕ) : Int) = _ then _ else _) = _
    rw [if_neg (by omega), ← hbyte]
    congr 1
    omega
  · rw [List.length_cons]
    omega
  · rcases List.mem_append.mp hx with hx | hx
    · exact h.stores x hx
    · rw [List.mem_singleton.mp hx]
      omega

theorem ofInt_digit {d : ℕ} (hd : d < 10) : UInt8.ofInt (48 - -(d : Int)) = digitChar d := by
  interval_cases d <;> rfl

/-- The digits of `n` are put in front of what is there. -/
theorem itoaLoop_meets : ∀ (fuel : ℕ) {n : ℕ} {t : ItoaText} {loc : Int} {s : List UInt8},
    n < fuel → n ≤ 2147483648 → (digits n).length + s.length ≤ 11 → Written t loc s →
    Meets r (itoaLoop fuel (-n) loc) t fun loc' t' => Written t' loc' (digits n ++ s)
  | 0, _, _, _, _, hfuel, _, _, _ => absurd hfuel (Nat.not_lt_zero _)
  | fuel + 1, n, t, loc, s, hfuel, hn, hlen, h => by
    rw [itoaLoop]
    refine Meets.ite_iff.mpr ⟨fun hne => ?_, fun hzero => ?_⟩
    · have hpos : 0 < n := by omega
      have hlast : n % 10 < 10 := Nat.mod_lt n (by decide)
      rw [digits_of_pos hpos] at hlen ⊢
      rw [List.length_append, List.length_singleton] at hlen
      have hmod : (-(n : Int)).tmod 10 = -(n % 10 : ℕ) := by
        rw [Int.neg_tmod]
        rfl
      have hdiv : (-(n : Int)).tdiv 10 = -(n / 10 : ℕ) := by
        rw [Int.neg_tdiv]
        rfl
      rw [hmod, hdiv]
      refine Meets.bind_iff.mpr (intResult_meets (by omega) (by omega) ?_)
      refine Meets.bind_iff.mpr (intResult_meets (by omega) (by omega) ?_)
      have hne₀ : UInt8.ofInt (48 - -(n % 10 : ℕ)) ≠ 0 := by
        rw [ofInt_digit hlast]
        exact digitChar_ne_zero hlast
      refine .bind (h.storeDown (by omega) hne₀) fun loc' t' h' => ?_
      rw [ofInt_digit hlast] at h'
      refine Meets.bind_iff.mpr (intResult_meets (by omega) (by omega) ?_)
      rw [List.append_assoc]
      refine itoaLoop_meets fuel (by omega) (by omega) ?_ h'
      rw [List.length_append, List.length_singleton]
      omega
    · obtain rfl : n = 0 := by omega
      exact Meets.pure_iff.mpr h

/-- Behind the first `if` of `itoa` the number is not positive. -/
theorem itoaMirrored_meets (neg : Bool) (hn : n ≤ 2147483648) (h : Written t 11 []) :
    Meets r (itoaMirrored neg (-n)) t fun loc t' => Written t' loc
      ((if neg then [45] else []) ++ if n = 0 then [48] else digits n) := by
  have hten : (digits n).length ≤ 10 := length_digits_le (by omega)
  rw [itoaMirrored, Int.natAbs_neg, Int.natAbs_natCast]
  refine .bind (itoaLoop_meets (n + 1) (Nat.lt_succ_self n) hn (by simp; omega) h) ?_
  intro loc t₁ h₁
  rw [List.append_nil] at h₁
  have hzero : loc = 11 ↔ n = 0 := by
    have hlen := h₁.length
    rw [← digits_eq_nil_iff, ← List.length_eq_zero_iff]
    omega
  rw [ite_congr (propext hzero) (fun _ => rfl) fun _ => rfl]
  -- what the sign makes of the digits
  have hsign : ∀ {loc₂ t₂}, Written t₂ loc₂ (if n = 0 then [48] else digits n) →
      Meets r (if neg then storeDown loc₂ 45 else pure loc₂) t₂ fun loc' t' => Written t' loc'
        ((if neg then [45] else []) ++ if n = 0 then [48] else digits n) := by
    intro loc₂ t₂ h₂
    refine Meets.ite_iff.mpr ⟨fun hneg => ?_, fun hneg => ?_⟩
    · rw [if_pos hneg]
      refine h₂.storeDown ?_ (by decide)
      split_ifs
      · decide
      · omega
    · rw [if_neg hneg]
      exact Meets.pure_iff.mpr h₂
  refine Meets.ite_iff.mpr ⟨fun h₀ => ?_, fun h₀ => ?_⟩
  · rw [h₀, digits_zero] at h₁
    refine .bind (h₁.storeDown (by decide) (by decide)) fun loc₂ t₂ h₂ => hsign ?_
    rw [if_pos h₀]
    exact h₂
  · refine Meets.bind_iff.mpr (Meets.pure_iff.mpr (hsign ?_))
    rw [if_neg h₀]
    exact h₁

/-- The numeral of every `int` fits. -/
theorem itoa_meets (hlo : -2147483648 ≤ i) (hhi : i < 2147483648)
    (h : ∀ x ∈ t.stores, 0 ≤ x ∧ x ≤ 11) :
    Meets r (itoa i) t fun loc t' => Written t' loc (numeral i) := by
  refine .bind (storeText_end h) fun _ t₁ h₁ => Meets.ite_iff.mpr ⟨fun hpos => ?_, fun hneg => ?_⟩
  · refine Meets.bind_iff.mpr (intResult_meets (by omega) (by omega) ?_)
    obtain ⟨n, rfl⟩ := Int.eq_ofNat_of_zero_le hpos
    rw [numeral, if_neg (by omega)]
    simpa using itoaMirrored_meets false (by omega) h₁
  · obtain ⟨n, rfl⟩ := Int.exists_eq_neg_ofNat (show i ≤ 0 by omega)
    rw [numeral, if_pos (by omega)]
    simpa using itoaMirrored_meets true (by omega) h₁

end Written

/-- `itoa` leaves the canonical numeral of every `int` in its buffer. -/
theorem itoa_numeral {i : Int} (hlo : -2147483648 ≤ i) (hhi : i < 2147483648)
    (text : Int → UInt8) : ∃ loc t' s, itoa i (ItoaText.start text) = some (loc, t') ∧
      (∀ x ∈ t'.stores, 0 ≤ x ∧ x ≤ 11) ∧
      StringIn (fun x : ℕ => t'.text (loc + x)) 0 s ∧ parse s = some i ∧ Canonical s ∧
      ∀ s', parse s' = some i → Canonical s' → s' = s := by
  have hstart : ∀ x ∈ (ItoaText.start text).stores, 0 ≤ x ∧ x ≤ 11 :=
    fun x hx => absurd hx List.not_mem_nil
  obtain ⟨loc, t', hrun, h⟩ := (itoa_meets hlo hhi hstart).exists_result
  exact ⟨loc, t', numeral i, hrun, h.stores, h.string, parse_numeral i, canonical_numeral i,
    fun s' hs' hcanonical => hcanonical.eq_numeral hs'⟩

/-- The longest numeral. -/
theorem itoa_numeral_minimum : ∃ loc t' s,
    itoa (-2147483648) (ItoaText.start fun _ => 0) = some (loc, t') ∧
      (∀ x ∈ t'.stores, 0 ≤ x ∧ x ≤ 11) ∧
      StringIn (fun x : ℕ => t'.text (loc + x)) 0 s ∧ parse s = some (-2147483648) ∧ Canonical s ∧
      ∀ s', parse s' = some (-2147483648) → Canonical s' → s' = s :=
  itoa_numeral (by decide) (by decide) fun _ => 0

end Hyperion
