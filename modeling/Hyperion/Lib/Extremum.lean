import Mathlib.Tactic.Common

/-!
# The best of a list

A loop over values with keys keeps one whose key is at least as good as that of every value it has
passed, the last of them if there are several. One key is reserved for a place that holds nothing
yet.
-/

namespace Extremum

variable {κ β : Type} {r : κ → κ → Prop} {unset : κ} {l : List (κ × β)} {kept : κ × β}

/-- `k` is one of the values, and its key is at least as good as every other. -/
structure Best (r : κ → κ → Prop) (l : List (κ × β)) (k : κ × β) : Prop where
  mem : k ∈ l
  best : ∀ x ∈ l, r k.1 x.1

variable [DecidableRel r] [DecidableEq κ]

/-- What is kept of the value that was kept before and the next one. -/
def keep (r : κ → κ → Prop) [DecidableRel r] (unset : κ) (kept x : κ × β) : κ × β :=
  if r x.1 kept.1 ∨ kept.1 = unset then x else kept

theorem keep_of_unset (h : kept.1 = unset) (x : κ × β) : keep r unset kept x = x :=
  if_pos (.inr h)

/-- The loop goes on from a value that is kept already. -/
theorem best_foldl_cons (total : ∀ x y : κ, r x y ∨ r y x)
    (trans : ∀ {x y z : κ}, r x y → r y z → r x z) :
    ∀ {l : List (κ × β)} {kept : κ × β}, kept.1 ≠ unset → (∀ x ∈ l, x.1 ≠ unset) →
      Best r (kept :: l) (l.foldl (keep r unset) kept)
  | [], kept, _, _ => ⟨List.mem_singleton.mpr rfl, fun x hx => by
    rw [List.mem_singleton.mp hx]
    exact (total _ _).elim id id⟩
  | x :: l, kept, hkept, hl => by
    have hx : x.1 ≠ unset := hl x List.mem_cons_self
    have hrest : ∀ y ∈ l, y.1 ≠ unset := fun y hy => hl y (List.mem_cons_of_mem x hy)
    rw [List.foldl_cons]
    by_cases hr : r x.1 kept.1
    · rw [keep, if_pos (.inl hr)]
      obtain ⟨hmem, hbest⟩ := best_foldl_cons total trans hx hrest
      refine ⟨List.mem_cons_of_mem _ hmem, fun y hy => ?_⟩
      rcases List.mem_cons.mp hy with rfl | hy
      · exact trans (hbest x List.mem_cons_self) hr
      · exact hbest y hy
    · rw [keep, if_neg (not_or.mpr ⟨hr, hkept⟩)]
      obtain ⟨hmem, hbest⟩ := best_foldl_cons total trans hkept hrest
      refine ⟨?_, fun y hy => ?_⟩
      · rcases List.mem_cons.mp hmem with hmem | hmem
        · exact List.mem_cons.mpr (.inl hmem)
        · exact List.mem_cons_of_mem _ (List.mem_cons_of_mem _ hmem)
      · rcases List.mem_cons.mp hy with rfl | hy
        · exact hbest y List.mem_cons_self
        · rcases List.mem_cons.mp hy with rfl | hy
          · exact trans (hbest kept List.mem_cons_self) ((total _ _).resolve_left hr)
          · exact hbest y (List.mem_cons_of_mem _ hy)

/-- From a place that holds nothing the loop finds the best of a list that is not empty. -/
theorem best_foldl (total : ∀ x y : κ, r x y ∨ r y x)
    (trans : ∀ {x y z : κ}, r x y → r y z → r x z) (hkept : kept.1 = unset) (hne : l ≠ [])
    (hl : ∀ x ∈ l, x.1 ≠ unset) : Best r l (l.foldl (keep r unset) kept) := by
  cases l with
  | nil => exact absurd rfl hne
  | cons x l =>
    rw [List.foldl_cons, keep_of_unset hkept]
    exact best_foldl_cons total trans (hl x List.mem_cons_self) fun y hy =>
      hl y (List.mem_cons_of_mem x hy)

end Extremum
