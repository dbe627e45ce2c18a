import Hyperion.Lib.Rings
import Mathlib.Data.List.Nodup
import Mathlib.Tactic.Common

/-!
# Doubly linked lists

A store of cells gives each address the next and the previous pointer of the cell there.
`Linked cell prev l a` says that following the next pointers from `a` visits exactly the
addresses `l` and then ends. The null pointer is 0. A cell appended at the end needs a
change of the last cell only, and so does the removal of the last one. The removal of any
other cell leaves a stale pointer if the cell after it is not changed.
-/

namespace DList

variable {cell cell' : ℕ → Option (ℕ × ℕ)}

/-- From `a` the next pointers visit `l` and end, and each previous pointer on the way is
the cell before, `prev` for the first. -/
def Linked (cell : ℕ → Option (ℕ × ℕ)) : (prev : ℕ) → (l : List ℕ) → (a : ℕ) → Prop
  | _, [], a => a = 0
  | prev, b :: l, a => a = b ∧ b ≠ 0 ∧ ∃ n, cell b = some (n, prev) ∧ Linked cell b l n

/-- The first address of a list, or null. -/
def first (l : List ℕ) : ℕ := l.head?.getD 0

/-- The last address of a list, or null. -/
def last (l : List ℕ) : ℕ := l.getLast?.getD 0

@[simp] theorem first_nil : first [] = 0 := rfl

@[simp] theorem first_cons (a : ℕ) (l : List ℕ) : first (a :: l) = a := rfl

@[simp] theorem last_nil : last [] = 0 := rfl

@[simp] theorem last_append_singleton (l : List ℕ) (a : ℕ) : last (l ++ [a]) = a := by
  simp [last]

/-- The last element is one. -/
theorem last_mem {l : List ℕ} (h : l ≠ []) : last l ∈ l := by
  rw [last, List.getLast?_eq_getLast_of_ne_nil h, Option.getD_some]
  exact List.getLast_mem h

/-- The first element is one. -/
theorem first_mem {l : List ℕ} (h : l ≠ []) : first l ∈ l := by
  obtain ⟨a, l, rfl⟩ := List.exists_cons_of_ne_nil h
  simp

/-- A linked list, cell by cell. -/
theorem linked_iff : ∀ {l : List ℕ} {prev a : ℕ}, Linked cell prev l a ↔ a = first l ∧
    ∀ l₁ b l₂, l = l₁ ++ b :: l₂ → b ≠ 0 ∧ cell b = some (first l₂, l₁.getLast?.getD prev)
  | [], prev, a => by simp [Linked]
  | c :: l, prev, a => by
    simp only [Linked, first_cons, linked_iff (l := l)]
    constructor
    · rintro ⟨rfl, hc, n, hcell, rfl, hl⟩
      refine ⟨rfl, fun l₁ b l₂ he => ?_⟩
      cases l₁ with
      | nil =>
        obtain ⟨rfl, rfl⟩ := List.cons.inj he
        exact ⟨hc, hcell⟩
      | cons d l₁ =>
        obtain ⟨rfl, rfl⟩ := List.cons.inj he
        simpa [List.getLast?_cons] using hl l₁ b l₂ rfl
    · rintro ⟨rfl, h⟩
      obtain ⟨hc, hcell⟩ := h [] a l rfl
      refine ⟨rfl, hc, _, hcell, rfl, fun l₁ b l₂ he => ?_⟩
      simpa [List.getLast?_cons] using h (a :: l₁) b l₂ (by rw [he]; rfl)

/-- The cell of a listed address. -/
theorem Linked.cell_eq {l l₁ l₂ : List ℕ} {a b : ℕ} (h : Linked cell 0 l a)
    (he : l = l₁ ++ b :: l₂) : b ≠ 0 ∧ cell b = some (first l₂, last l₁) :=
  (linked_iff.mp h).2 l₁ b l₂ he

/-- The list begins with its first element. -/
theorem Linked.head_eq {l : List ℕ} {a : ℕ} (h : Linked cell 0 l a) : a = first l :=
  (linked_iff.mp h).1

/-- No cell is at the null pointer. -/
theorem Linked.ne_zero {l : List ℕ} {a b : ℕ} (h : Linked cell 0 l a) (hb : b ∈ l) : b ≠ 0 := by
  obtain ⟨l₁, l₂, he⟩ := List.append_of_mem hb
  exact (h.cell_eq he).1

/-- The list is a ring when its end is taken for its head. -/
theorem Linked.around {l : List ℕ} {a : ℕ} (h : Linked cell 0 l a) :
    Rings.Around (fun b => (cell b).map fun c => if c.1 = 0 then a else c.1) l := by
  intro l₁ b l₂ he
  simp only [(h.cell_eq he).2, Option.map_some]
  cases l₂ with
  | nil =>
    rw [first_nil, if_pos rfl, h.head_eq, he]
    cases l₁ <;> rfl
  | cons c l₂ => rw [first_cons, if_neg (h.ne_zero (by simp [he])), List.cons_append,
    List.head?_cons]

/-- A list survives a change of cells that are not on it. -/
theorem Linked.congr {l : List ℕ} {a : ℕ} (h : Linked cell 0 l a)
    (hs : ∀ b ∈ l, cell' b = cell b) : Linked cell' 0 l a := by
  rw [linked_iff] at h ⊢
  refine ⟨h.1, fun l₁ b l₂ he => ?_⟩
  rw [hs b (by simp [he])]
  exact h.2 l₁ b l₂ he

/-- A split of a list with a last address either ends there or is a split before it. -/
theorem split_append_singleton {α : Type} {l l₁ l₂ : List α} {z b : α}
    (h : l ++ [z] = l₁ ++ b :: l₂) :
    (l₁ = l ∧ b = z ∧ l₂ = []) ∨ ∃ l₃, l₂ = l₃ ++ [z] ∧ l = l₁ ++ b :: l₃ := by
  rcases List.eq_nil_or_concat l₂ with rfl | ⟨l₃, y, rfl⟩
  · obtain ⟨rfl, hb⟩ := List.append_inj' h rfl
    exact .inl ⟨rfl, (List.singleton_inj.mp hb).symm, rfl⟩
  · have h' : l ++ [z] = (l₁ ++ b :: l₃) ++ [y] := by simpa using h
    obtain ⟨rfl, hz⟩ := List.append_inj' h' rfl
    obtain rfl := List.singleton_inj.mp hz
    exact .inr ⟨l₃, by simp, rfl⟩

/-- A cell of a list whose last next pointer is changed to `x`. -/
theorem cell_set_last {l l₁ l₂ : List ℕ} {b m p x : ℕ} (hnd : l.Nodup) (he : l = l₁ ++ b :: l₂)
    (hcell : cell b = some (m, p)) (hm : l₂ ≠ [] → m = first l₂)
    (hsame : ∀ c ∈ l, c ≠ last l → cell' c = cell c)
    (hlast : l ≠ [] → ∀ n p, cell (last l) = some (n, p) → cell' (last l) = some (x, p)) :
    cell' b = some (if l₂ = [] then x else first l₂, p) := by
  rcases List.eq_nil_or_concat l₂ with rfl | ⟨l₃, y, rfl⟩
  · have hb : last l = b := by simp [he]
    rw [← hb] at hcell ⊢
    rw [if_pos rfl]
    exact hlast (by simp [he]) _ _ hcell
  · have hy : last l = y := by
      rw [he, show l₁ ++ b :: l₃.concat y = (l₁ ++ b :: l₃) ++ [y] by simp, last_append_singleton]
    have hne : b ≠ last l := by
      rintro rfl
      rw [he, hy] at hnd
      simp [List.nodup_append] at hnd
    rw [hsame b (by simp [he]) hne, hcell, if_neg (by simp), hm (by simp)]

/-- Appending a cell changes the last one. -/
theorem Linked.snoc {l : List ℕ} {a b : ℕ} (h : Linked cell 0 l a) (hnd : l.Nodup) (hb : b ≠ 0)
    (hsame : ∀ c ∈ l, c ≠ last l → cell' c = cell c)
    (hlast : l ≠ [] → ∀ n p, cell (last l) = some (n, p) → cell' (last l) = some (b, p))
    (hnew : cell' b = some (0, last l)) : Linked cell' 0 (l ++ [b]) (first (l ++ [b])) := by
  refine linked_iff.mpr ⟨rfl, fun l₁ c l₂ he => ?_⟩
  rcases split_append_singleton he with ⟨rfl, rfl, rfl⟩ | ⟨l₃, rfl, he'⟩
  · exact ⟨hb, hnew⟩
  · obtain ⟨hc, hcell⟩ := h.cell_eq he'
    refine ⟨hc, (cell_set_last hnd he' hcell (fun _ => rfl) hsame hlast).trans ?_⟩
    cases l₃ <;> simp [last]

/-- Removing the last cell changes the one before it. -/
theorem Linked.dropLast {l : List ℕ} {a b : ℕ} (h : Linked cell 0 (l ++ [b]) a) (hnd : l.Nodup)
    (hsame : ∀ c ∈ l, c ≠ last l → cell' c = cell c)
    (hlast : l ≠ [] → ∀ n p, cell (last l) = some (n, p) → cell' (last l) = some (0, p)) :
    Linked cell' 0 l (first l) := by
  refine linked_iff.mpr ⟨rfl, fun l₁ c l₂ he => ?_⟩
  obtain ⟨hc, hcell⟩ := h.cell_eq (show l ++ [b] = l₁ ++ c :: (l₂ ++ [b]) by simp [he])
  refine ⟨hc, (cell_set_last hnd he hcell (fun hne => ?_) hsame hlast).trans ?_⟩
  · obtain ⟨d, l₃, rfl⟩ := List.exists_cons_of_ne_nil hne
    rfl
  · cases l₂ <;> simp [last]

/-- Removing a cell leaves a stale previous pointer if the cell after it is unchanged. -/
theorem Linked.stale {l₁ l₂ : List ℕ} {a a' x b : ℕ} (h : Linked cell 0 (l₁ ++ x :: b :: l₂) a)
    (hnd : (l₁ ++ x :: b :: l₂).Nodup) (hsame : cell' b = cell b) :
    ¬Linked cell' 0 (l₁ ++ b :: l₂) a' := by
  intro h'
  have hold := (h.cell_eq (show l₁ ++ x :: b :: l₂ = (l₁ ++ [x]) ++ b :: l₂ by simp)).2
  have hnew := (h'.cell_eq rfl).2
  rw [hsame, hold, last_append_singleton, Option.some.injEq, Prod.mk.injEq] at hnew
  have hx : x ≠ 0 := h.ne_zero (by simp)
  have hmem : last l₁ ∈ l₁ := last_mem fun hnil => hx (by simp [hnew.2, hnil])
  rw [← hnew.2] at hmem
  exact (List.nodup_append.mp hnd).2.2 x hmem x (by simp) rfl

end DList
