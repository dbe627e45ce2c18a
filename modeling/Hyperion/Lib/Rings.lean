import Mathlib.Data.List.Basic
import Mathlib.Tactic.Common

/-!
# Rings

`next` leads around a ring, a list whose last element is followed by its first. A ring may be
read from any of its elements on, and an element leaves it when the one before is led to the one
after.
-/

namespace Rings

variable {α : Type} {next next' : α → Option α} {a : α} {l l₁ l₂ : List α}

/-- Each element leads to the one after it, the last one to the first. -/
def Around (next : α → Option α) (ring : List α) : Prop :=
  ∀ l₁ a l₂, ring = l₁ ++ a :: l₂ → next a = (l₂ ++ (l₁ ++ [a])).head?

theorem Around.head (h : Around next (a :: l)) : next a = (l ++ [a]).head? := h [] a l rfl

theorem Around.congr (h : Around next l) (hs : ∀ a ∈ l, next' a = next a) : Around next' l := by
  intro l₁ a l₂ he
  rw [hs a (by simp [he])]
  exact h l₁ a l₂ he

/-- The ring from its second element on. -/
theorem Around.turn (h : Around next (a :: l)) : Around next (l ++ [a]) := by
  intro l₁ b l₂ he
  rcases List.eq_nil_or_concat l₂ with rfl | ⟨l₃, c, rfl⟩
  · obtain ⟨rfl, hab⟩ := List.append_inj' he rfl
    obtain rfl := (List.cons.inj hab).1
    rw [List.nil_append]
    exact h.head
  · rw [List.concat_eq_append, ← List.cons_append, ← List.append_assoc] at he
    obtain ⟨rfl, hac⟩ := List.append_inj' he rfl
    obtain rfl := (List.cons.inj hac).1
    rw [h (a :: l₁) b l₃ rfl]
    simp

/-- The ring from any element on. -/
theorem Around.comm (h : Around next (l₁ ++ l₂)) : Around next (l₂ ++ l₁) := by
  induction l₁ generalizing l₂ with
  | nil => simpa using h
  | cons a l₁ ih =>
    have hturn : Around next (l₁ ++ (l₂ ++ [a])) := by
      rw [← List.append_assoc]
      exact Around.turn h
    have hrest := ih hturn
    rwa [List.append_assoc, List.singleton_append] at hrest

/-- An element leaves the ring. -/
theorem Around.unlink (h : Around next (a :: l)) (ha : a ∉ l)
    (hprev : ∀ b ∈ l, next b = some a → next' b = next a)
    (hother : ∀ b ∈ l, next b ≠ some a → next' b = next b) : Around next' l := by
  rintro l₁ b l₂ rfl
  have hb : b ∈ l₁ ++ b :: l₂ := by simp
  have hnext := h (a :: l₁) b l₂ rfl
  cases l₂ with
  | nil =>
    rw [hprev b hb (by rw [hnext]; rfl), h.head]
    cases l₁ <;> rfl
  | cons c l₂ =>
    have hca : c ≠ a := by
      rintro rfl
      exact ha (by simp)
    have hc : next b = some c := hnext
    rw [hother b hb (by rw [hc]; simpa using hca), hc]
    rfl

end Rings
