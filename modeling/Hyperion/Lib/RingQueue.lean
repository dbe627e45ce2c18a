import Mathlib.Data.Nat.ModEq
import Mathlib.Data.List.GetD
import Mathlib.Tactic.Common

/-!
# A queue in a ring of cells

`RingQueue n empty buf head q` : the `n` cells `buf`, read from `head` on and around, hold
the queue `q`, and the cells behind it hold `empty`, which is no element of the queue.
A push and a pop are each one assignment to a cell, and whether the queue is empty shows
in the cell at the head.
-/

/-- From `head` on the cells hold `q` and behind it `empty`. -/
structure RingQueue {α : Type} (n : ℕ) (empty : α) (buf : ℕ → α) (head : ℕ)
    (q : List α) : Prop where
  length : q.length ≤ n
  cell : ∀ i < n, buf ((head + i) % n) = q.getD i empty
  full : ∀ x ∈ q, x ≠ empty

namespace RingQueue

variable {α : Type} {n head : ℕ} {empty x : α} {buf : ℕ → α} {q : List α}

/-- Two cells of the ring are the same only at the same distance from the head. -/
theorem index_inj {i j : ℕ} (hi : i < n) (hj : j < n)
    (h : (head + i) % n = (head + j) % n) : i = j := by
  have h' : head + i ≡ head + j [MOD n] := h
  have h'' := Nat.ModEq.add_left_cancel' head h'
  rwa [Nat.ModEq, Nat.mod_eq_of_lt hi, Nat.mod_eq_of_lt hj] at h''

/-- Only the cell that the head stands on counts. -/
theorem congr_head (h : RingQueue n empty buf head q) {head' : ℕ} (he : head' % n = head % n) :
    RingQueue n empty buf head' q where
  length := h.length
  cell i hi := by
    rw [← h.cell i hi, Nat.add_mod, he, ← Nat.add_mod]
  full := h.full

theorem nil (hcell : ∀ i < n, buf i = empty) (head : ℕ) : RingQueue n empty buf head [] where
  length := Nat.zero_le n
  cell i hi := hcell _ (Nat.mod_lt _ (by omega))
  full := by simp

/-- A push writes the cell behind the queue. -/
theorem push (h : RingQueue n empty buf head q) (hq : q.length < n) (hx : x ≠ empty) :
    RingQueue n empty (fun i => if i = (head + q.length) % n then x else buf i) head
      (q ++ [x]) where
  length := by simpa using Nat.succ_le_of_lt hq
  cell i hi := by
    by_cases hiq : i = q.length
    · rw [if_pos (by rw [hiq])]
      simp [hiq]
    · rw [if_neg fun he => hiq (index_inj hi hq he), h.cell i hi]
      rcases Nat.lt_or_gt_of_ne hiq with hlt | hgt
      · simp [List.getElem?_append_left hlt]
      · rw [List.getD_eq_default _ _ hgt.le,
          List.getD_eq_default _ _ (by simpa using Nat.succ_le_of_lt hgt)]
  full y hy := by
    rcases List.mem_append.mp hy with hy | hy
    · exact h.full y hy
    · rwa [List.mem_singleton.mp hy]

/-- A pop clears the cell at the head. -/
theorem pop (h : RingQueue n empty buf head (x :: q)) :
    RingQueue n empty (fun i => if i = head % n then empty else buf i) (head + 1) q where
  length := le_trans (Nat.le_succ _) h.length
  cell i hi := by
    have hn : q.length < n := h.length
    by_cases hlast : i + 1 = n
    · rw [if_pos (by rw [Nat.add_assoc, Nat.add_comm 1 i, hlast, Nat.add_mod_right]),
        List.getD_eq_default _ _ (by omega)]
    · have hcell := h.cell (i + 1) (by omega)
      have hne : (head + 1 + i) % n ≠ head % n := by
        intro he
        have h0 : (head + (i + 1)) % n = (head + 0) % n := by
          have hassoc : head + (i + 1) = head + 1 + i := by omega
          rw [hassoc, he, Nat.add_zero]
        have := index_inj (i := i + 1) (j := 0) (by omega) (by omega) h0
        omega
      rw [if_neg hne, Nat.add_assoc, Nat.add_comm 1 i, hcell]
      simp
  full y hy := h.full y (List.mem_cons_of_mem _ hy)

/-- The queue is empty exactly when the cell at the head is. -/
theorem head_eq_empty (h : RingQueue n empty buf head q) (hn : 0 < n) :
    buf (head % n) = empty ↔ q = [] := by
  have hcell := h.cell 0 hn
  rw [Nat.add_zero] at hcell
  rw [hcell]
  cases q with
  | nil => simp
  | cons y q => simpa using h.full y List.mem_cons_self

theorem head_eq (h : RingQueue n empty buf head (x :: q)) (hn : 0 < n) : buf (head % n) = x := by
  simpa using h.cell 0 hn

end RingQueue
