import Mathlib.Tactic.Common

/-!
# Runs of free cells

Runs of consecutive cells of a row that satisfy `free`, and the answer of a
left-to-right search for one of length `n`. `Found free total n r` lists what such a
search may answer : the leftmost run, or, when no run is long enough, the start of the
run that ends with the last cell, or nothing.
-/

namespace FreeRun

variable {free : ℕ → Prop} {total n s i : ℕ}

/-- The `n` cells from `s` on are free. -/
def IsRun (free : ℕ → Prop) (s n : ℕ) : Prop := ∀ i, s ≤ i → i < s + n → free i

/-- Some run of `n` cells lies below `total`. -/
def HasRun (free : ℕ → Prop) (total n : ℕ) : Prop := ∃ s, s + n ≤ total ∧ IsRun free s n

/-- `s` is the leftmost start of a run of `n` cells below `total`. -/
structure FirstRun (free : ℕ → Prop) (total n s : ℕ) : Prop where
  inside : s + n ≤ total
  run : IsRun free s n
  first : ∀ s' < s, ¬IsRun free s' n

/-- The cells from `s` up to the last one are free, and `s` cannot be lowered. -/
structure LastRun (free : ℕ → Prop) (total s : ℕ) : Prop where
  lt : s < total
  run : IsRun free s (total - s)
  maximal : s = 0 ∨ ¬free (s - 1)

/-- The empty run is anywhere. -/
theorem isRun_zero : IsRun free s 0 := fun _ _ _ => by omega

/-- A run has shorter ones. -/
theorem IsRun.mono {m : ℕ} (h : IsRun free s n) (hm : m ≤ n) : IsRun free s m :=
  fun i hi hi' => h i hi (by omega)

/-- One more free block behind it. -/
theorem IsRun.snoc (h : IsRun free s n) (hf : free (s + n)) : IsRun free s (n + 1) := by
  intro i hi hi'
  rcases Nat.lt_or_ge i (s + n) with hlt | hge
  · exact h i hi hlt
  · obtain rfl : i = s + n := by omega
    exact hf

/-- A run cannot cross a cell that is not free. -/
theorem not_isRun_of_blocked (hi : ¬free i) (hs : s ≤ i) (hn : i < s + n) : ¬IsRun free s n :=
  fun h => hi (h i hs hn)

/-- The first run is a run. -/
theorem FirstRun.hasRun (h : FirstRun free total n s) : HasRun free total n :=
  ⟨s, h.inside, h.run⟩

/-- No run begins before it. -/
theorem FirstRun.le_of_isRun (h : FirstRun free total n s) {s' : ℕ} (h' : IsRun free s' n) :
    s ≤ s' :=
  Nat.le_of_not_lt fun hlt => h.first s' hlt h'

/-- There is one first run. -/
theorem FirstRun.unique {s' : ℕ} (h : FirstRun free total n s) (h' : FirstRun free total n s') :
    s = s' :=
  Nat.le_antisymm (h.le_of_isRun h'.run) (h'.le_of_isRun h.run)

/-- Where there is a run there is a shorter one. -/
theorem HasRun.mono {m : ℕ} (h : HasRun free total n) (hm : m ≤ n) : HasRun free total m := by
  obtain ⟨s, hs, hr⟩ := h
  exact ⟨s, by omega, hr.mono hm⟩

/-- No run of `n` cells ends at or before cell `i`. -/
def NoneBelow (free : ℕ → Prop) (n i : ℕ) : Prop := ∀ s, s + n ≤ i → ¬IsRun free s n

/-- No run begins below 0. -/
theorem noneBelow_zero (hn : 0 < n) : NoneBelow free n 0 := fun s hs => by omega

/-- Passing a cell that is not free ends no run. -/
theorem NoneBelow.blocked (h : NoneBelow free n i) (hn : 0 < n) (hi : ¬free i) :
    NoneBelow free n (i + 1) := by
  intro s hs
  rcases Nat.lt_or_ge i (s + n) with hlt | hge
  · exact not_isRun_of_blocked hi (by omega) hlt
  · exact h s hge

/-- Passing a free cell ends no run while the current run, started after a cell that is
not free, is still shorter than `n`. -/
theorem NoneBelow.short (h : NoneBelow free n i) {st : ℕ} (hst : st = 0 ∨ ¬free (st - 1))
    (hlen : i + 1 - st < n) (hle : st ≤ i) : NoneBelow free n (i + 1) := by
  intro s hs
  rcases Nat.lt_or_ge i (s + n) with hlt | hge
  · rcases hst with rfl | hb
    · omega
    · rcases Nat.eq_zero_or_pos st with rfl | hpos
      · omega
      · exact not_isRun_of_blocked hb (by omega) (by omega)
  · exact h s hge

/-- If none begins below the end there is none. -/
theorem NoneBelow.not_hasRun (h : NoneBelow free n total) : ¬HasRun free total n :=
  fun ⟨s, hs, hr⟩ => h s hs hr

/-- The answers of a search for `n` free cells among the first `total`. -/
inductive Found (free : ℕ → Prop) (total n : ℕ) : Int → Prop
  | fit (s : ℕ) : 0 < n → FirstRun free total n s → Found free total n s
  | short (s : ℕ) : (0 < n → ¬HasRun free total n) → LastRun free total s → Found free total n s
  | full : (0 < n → ¬HasRun free total n) → (total = 0 ∨ ¬free (total - 1)) →
      Found free total n (-1)

end FreeRun
