import Mathlib.Data.List.GetD
import Mathlib.Data.UInt
import Mathlib.Tactic.Common

/-!
# Strings in memory

Lists of bytes that stand in a memory with a NUL behind them.
-/

namespace CString

/-- The string `s`, with its NUL, is in memory from `a` on. -/
structure StringIn (m : ℕ → UInt8) (a : ℕ) (s : List UInt8) : Prop where
  ne_zero : ∀ c ∈ s, c ≠ 0
  byte : ∀ i ≤ s.length, m (a + i) = s.getD i 0

namespace StringIn

variable {m m' : ℕ → UInt8} {a : ℕ} {x : UInt8} {s w : List UInt8}

theorem nul (h : StringIn m a []) : m a = 0 := h.byte 0 le_rfl

theorem head (h : StringIn m a (x :: s)) : m a = x := h.byte 0 (Nat.zero_le _)

theorem head_ne (h : StringIn m a (x :: s)) : x ≠ 0 := h.ne_zero x (by simp)

/-- The bytes of a string and a NUL, stored from `a` on. -/
theorem of_stored (hs : ∀ c ∈ s, c ≠ 0) (hm : ∀ i ≤ s.length, m (a + i) = (s ++ [0]).getD i 0) :
    StringIn m a s where
  ne_zero := hs
  byte i hi := by
    rw [hm i hi]
    rcases Nat.lt_or_ge i s.length with hlt | hge
    · rw [List.getD_append _ _ _ _ hlt]
    · obtain rfl : i = s.length := by omega
      rw [List.getD_append_right _ _ _ _ le_rfl, List.getD_eq_default _ _ le_rfl]
      simp

/-- The string behind the first byte. -/
theorem tail (h : StringIn m a (x :: s)) : StringIn m (a + 1) s where
  ne_zero c hc := h.ne_zero c (by simp [hc])
  byte i hi := by
    rw [show a + 1 + i = a + (i + 1) by omega, h.byte (i + 1) (by simpa using hi)]
    rfl

/-- A byte in front of a string. -/
theorem cons (hx : x ≠ 0) (ha : m a = x) (h : StringIn m (a + 1) s) : StringIn m a (x :: s) where
  ne_zero c hc := by
    rcases List.mem_cons.1 hc with rfl | hc
    · exact hx
    · exact h.ne_zero c hc
  byte
    | 0, _ => ha
    | i + 1, hi => by
      rw [show a + (i + 1) = a + 1 + i by omega, h.byte i (by simpa using hi)]
      rfl

/-- The string behind a part of it. -/
theorem drop : ∀ {a : ℕ} (w : List UInt8), StringIn m a (w ++ s) → StringIn m (a + w.length) s
  | _, [], h => h
  | a, x :: w, h => by
    have hdrop := drop w h.tail
    rwa [List.length_cons, show a + (w.length + 1) = a + 1 + w.length by omega]

/-- Memory with the same bytes holds the same string. -/
theorem congr (h : StringIn m a s) (hm : ∀ i ≤ s.length, m' (a + i) = m (a + i)) :
    StringIn m' a s :=
  ⟨h.ne_zero, fun i hi => by rw [hm i hi, h.byte i hi]⟩

/-- A NUL put into the string ends it there. -/
theorem cut (h : StringIn m a (w ++ s)) (hm : ∀ i < w.length, m' (a + i) = m (a + i))
    (hnul : m' (a + w.length) = 0) : StringIn m' a w where
  ne_zero c hc := h.ne_zero c (by simp [hc])
  byte i hi := by
    rcases Nat.lt_or_ge i w.length with hlt | hge
    · rw [hm i hlt, h.byte i (by simp; omega), List.getD_append _ _ _ _ hlt]
    · obtain rfl : i = w.length := by omega
      rw [hnul, List.getD_eq_default _ _ le_rfl]

/-- There is one string at an address. -/
theorem unique : ∀ {a : ℕ} {s w : List UInt8}, StringIn m a s → StringIn m a w → s = w
  | _, [], [], _, _ => rfl
  | _, [], y :: _, h, h' => absurd (h'.head.symm.trans h.nul) h'.head_ne
  | _, x :: _, [], h, h' => absurd (h.head.symm.trans h'.nul) h.head_ne
  | _, x :: s, y :: w, h, h' => by rw [h.head.symm.trans h'.head, h.tail.unique h'.tail]

end StringIn

end CString
