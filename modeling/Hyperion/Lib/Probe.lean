import Mathlib.Tactic.Common

/-!
# Computations that look at memory

A `Probe` reads bytes by address and keeps the addresses it has read. `Inside lo n` says
that all of them are among the `n` from `lo` on. The rules take it through the operations
with the values that were read, so that a branch counts only where it is taken.
-/

/-- The result, and the addresses read. -/
def Probe (α : Type) : Type := (ℕ → UInt8) → α × List ℕ

namespace Probe

variable {α β : Type}

/-- What the probe finds in the memory `m`. -/
def value (p : Probe α) (m : ℕ → UInt8) : α := (p m).1

/-- The addresses that it reads there. -/
def reads (p : Probe α) (m : ℕ → UInt8) : List ℕ := (p m).2

instance : Monad Probe where
  pure a := fun _ => (a, [])
  bind p f := fun m => ((f (p m).1 m).1, (p m).2 ++ (f (p m).1 m).2)

/-- The byte at `a`. -/
def byte (a : ℕ) : Probe UInt8 := fun m => (m a, [a])

/-- The little-endian 16-bit word at `a`. -/
def word16 (a : ℕ) : Probe ℕ := do
  let b₀ ← byte a
  let b₁ ← byte (a + 1)
  return b₀.toNat + b₁.toNat * 256

/-- The little-endian 32-bit word at `a`. -/
def word32 (a : ℕ) : Probe ℕ := do
  let b₀ ← byte a
  let b₁ ← byte (a + 1)
  let b₂ ← byte (a + 2)
  let b₃ ← byte (a + 3)
  return b₀.toNat + b₁.toNat * 256 + b₂.toNat * 65536 + b₃.toNat * 16777216

variable {m : ℕ → UInt8} {p q : Probe α} {f : α → Probe β} {a lo n : ℕ}

@[simp] theorem value_pure (x : α) : value (pure x) m = x := rfl

@[simp] theorem value_bind : value (p >>= f) m = value (f (value p m)) m := rfl

@[simp] theorem value_byte : value (byte a) m = m a := rfl

@[simp] theorem value_ite {c : Prop} [Decidable c] :
    value (if c then p else q) m = if c then value p m else value q m := by
  split_ifs <;> rfl

/-- Every address read is one of the `n` from `lo` on. -/
def Inside (lo n : ℕ) (p : Probe α) (m : ℕ → UInt8) : Prop :=
  ∀ a ∈ p.reads m, lo ≤ a ∧ a < lo + n

@[simp] theorem inside_pure (x : α) : Inside lo n (pure x) m := fun _ h => nomatch h

/-- A sequence stays inside if both its parts do. -/
@[simp] theorem inside_bind :
    Inside lo n (p >>= f) m ↔ Inside lo n p m ∧ Inside lo n (f (value p m)) m :=
  List.forall_mem_append

/-- A byte inside the buffer. -/
@[simp] theorem inside_byte : Inside lo n (byte a) m ↔ lo ≤ a ∧ a < lo + n :=
  ⟨fun h => h a List.mem_cons_self, fun h b hb => by rwa [List.mem_singleton.mp hb]⟩

/-- Only the branch that is taken has to stay inside. -/
@[simp] theorem inside_ite {c : Prop} [Decidable c] :
    Inside lo n (if c then p else q) m ↔
      (c → Inside lo n p m) ∧ (¬c → Inside lo n q m) := by
  split_ifs with h <;> simp [h]

/-- Both bytes of a half word. -/
@[simp] theorem inside_word16 : Inside lo n (word16 a) m ↔ lo ≤ a ∧ a + 2 ≤ lo + n := by
  simp only [word16, inside_bind, inside_byte, inside_pure, and_true]
  omega

/-- The four bytes of a word. -/
@[simp] theorem inside_word32 : Inside lo n (word32 a) m ↔ lo ≤ a ∧ a + 4 ≤ lo + n := by
  simp only [word32, inside_bind, inside_byte, inside_pure, and_true]
  omega

/-- Whatever the memory, the result satisfies `Q`. -/
def Ensures (p : Probe α) (Q : α → Prop) : Prop := ∀ m, Q (p.value m)

namespace Ensures

variable {Q : α → Prop} {R : β → Prop}

/-- Nothing is said of the value. -/
theorem any : Ensures p fun _ => True := fun _ => trivial

theorem pure {x : α} (h : Q x) : Ensures (pure x) Q := fun _ => h

/-- A postcondition is passed on. -/
theorem bind (h : Ensures p Q) (hf : ∀ x, Q x → Ensures (f x) R) : Ensures (p >>= f) R :=
  fun m => hf _ (h m) m

theorem ite {c : Prop} [Decidable c] (h : Ensures p Q) (h' : Ensures q Q) :
    Ensures (if c then p else q) Q := by
  split_ifs
  · exact h
  · exact h'

end Ensures

/-- A check that ends the computation with `x` when it fails. -/
theorem value_guard {g : Probe Bool} {x : α} :
    value (g >>= fun b => if (!b) = true then pure x else p) m =
      if value g m = true then value p m else x := by
  rw [value_bind]
  cases value g m <;> rfl

/-- What stands behind a test that failed is not read. -/
theorem inside_guard {g : Probe Bool} {x : α} :
    Inside lo n (g >>= fun b => if (!b) = true then pure x else p) m ↔
      Inside lo n g m ∧ (value g m = true → Inside lo n p m) := by
  rw [inside_bind]
  cases value g m <;> simp

end Probe
