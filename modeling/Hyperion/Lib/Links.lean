import Mathlib.Data.Set.Finite.Basic
import Mathlib.Dynamics.PeriodicPts.Defs

/-!
# Chains of links

Nodes that are linked by `next`, where some values of a link are marks that end the
chain. Among finitely many nodes a chain ends exactly if it does not come back to a node
(`exists_mark_iff`). `walk next mark n a` follows `n` links from `a` and has a value if none
of them is a mark.
-/

namespace Links

variable {α : Type} (next : α → α) (mark : α → Prop)

/-! ## Chains that end -/

/-- From `a` on no node is the same as an earlier one, as far as there is no mark. -/
def NeverReturns (a : α) : Prop :=
  ∀ i j, i < j → (∀ l ≤ j, ¬mark (next^[l] a)) → next^[i] a ≠ next^[j] a

variable {next mark} {n : ℕ} {a b : α}

/-- A chain with a mark cannot return before it : it would go round without one. -/
theorem neverReturns_of_mark (h : mark (next^[n] a)) : NeverReturns next mark a := by
  intro i j hij hno he
  have hperiodic : Function.IsPeriodicPt next (j - i) (next^[i] a) := by
    rw [Function.IsPeriodicPt, Function.IsFixedPt, ← Function.iterate_add_apply,
      Nat.sub_add_cancel hij.le, he]
  have hjn : j < n := by
    by_contra hle
    exact hno n (by omega) h
  have hmod : (n - i) % (j - i) < j - i := Nat.mod_lt _ (by omega)
  refine hno ((n - i) % (j - i) + i) (by omega) ?_
  rwa [Function.iterate_add_apply, hperiodic.iterate_mod_apply, ← Function.iterate_add_apply,
    Nat.sub_add_cancel (by omega)]

/-- Among finitely many nodes a chain comes to a mark exactly if it does not return. -/
theorem exists_mark_iff (hfin : (Set.range fun n => next^[n] a).Finite) :
    (∃ n, mark (next^[n] a)) ↔ NeverReturns next mark a := by
  refine ⟨fun ⟨n, hn⟩ => neverReturns_of_mark hn, fun hnever => ?_⟩
  by_contra hno
  push Not at hno
  refine Set.infinite_range_of_injective (fun i j he => ?_) hfin
  rcases Nat.lt_trichotomy i j with hlt | rfl | hlt
  · exact absurd he (hnever i j hlt fun l _ => hno l)
  · rfl
  · exact absurd he.symm (hnever j i hlt fun l _ => hno l)

/-! ## Walks -/

variable (next mark) [DecidablePred mark]

def walk : ℕ → α → Option α
  | 0, a => some a
  | n + 1, a => if mark (next a) then none else walk n (next a)

variable {next mark}

/-- The walk comes to a mark. -/
theorem walk_eq_none_iff : walk next mark n a = none ↔ ∃ i < n, mark (next^[i + 1] a) := by
  induction n generalizing a with
  | zero => simp [walk]
  | succ n ih =>
    rw [walk]
    split_ifs with hmark
    · exact iff_of_true rfl ⟨0, by omega, hmark⟩
    · rw [ih]
      constructor
      · rintro ⟨i, hi, h⟩
        exact ⟨i + 1, by omega, h⟩
      · rintro ⟨i, hi, h⟩
        cases i with
        | zero => exact absurd h hmark
        | succ i => exact ⟨i, by omega, h⟩

end Links
