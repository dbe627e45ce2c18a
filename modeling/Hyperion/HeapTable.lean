import Hyperion.Heap
import Hyperion.Lib.FreeRun

/-!
# What the heap functions do to the block table

One lemma for each function of `heap.c`. `Found` gives the answers of the block
search, `Held` the bytes of an allocated range. Taking writes exactly a held range,
freeing a held range clears exactly it, and a held range is not touched by any other
operation. Two held ranges with different starts are disjoint, because only the
start carries the first-block flag.

The search is `heapGetStartBlockLoop_spec`, by induction on the entries that are left with the run
that is being counted. Marking and clearing are loops of their own : `blockByte` is the byte that
marking leaves in each block of a range, and clearing stops at the first byte without the
next-block flag (`heapMarkBlocksFreeLoop_above`), which in a held range is its last one.

`Keeps t t'` is for programs that allocate and free on the way : whatever was taken in `t` is in
`t'` as it was, and no chain of the blocks that were free runs into it. Marking free blocks keeps
it, and so does freeing from a block that was free in `t` (`Keeps.mark`, `Keeps.free`). The null
address is entry -4096, below the table, and `Guarded` is what stops its chain before the table.
-/

namespace Hyperion

open FreeRun

namespace HeapTable

variable (t : HeapTable)

/-- Block `i` is free. -/
def IsFree (i : ℕ) : Prop := t.entries i = blockFree

instance (i : ℕ) : Decidable (t.IsFree i) := inferInstanceAs (Decidable (_ = _))

/-- A table is its size and its entries. -/
theorem eq_of_entries {t t' : HeapTable} (h : t.total = t'.total) (h' : t.entries = t'.entries) :
    t = t' := by
  cases t
  cases t'
  simp_all

@[simp] theorem setEntry_total (i : Int) (b : UInt8) : (t.setEntry i b).total = t.total := rfl

theorem setEntry_entries (i j : Int) (b : UInt8) :
    (t.setEntry i b).entries j = if j = i then b else t.entries j := rfl

end HeapTable

/-- What the code asks of an entry is whether it is free. -/
theorem heapGetEntryType_ne_iff (t : HeapTable) (i : ℕ) :
    heapGetEntryType (if t.entries i ≠ blockFree then 1 else 0) ≠ 0 ↔ ¬t.IsFree i := by
  unfold HeapTable.IsFree
  split
  · rename_i h
    exact ⟨fun _ => h, fun _ => by decide⟩
  · rename_i h
    exact ⟨fun h' => absurd (by decide) h', fun h' => absurd h' h⟩

/-! ## The search -/

/-- The loop from cell `i` on, in a current run that starts at `st`. -/
theorem heapGetStartBlockLoop_found (t : HeapTable) (n : ℕ) :
    ∀ (fuel i st : ℕ), i + fuel = t.total → st ≤ i → IsRun t.IsFree st (i - st) →
      (st = 0 ∨ ¬t.IsFree (st - 1)) → (0 < n → i - st < n ∧ NoneBelow t.IsFree n i) →
      Found t.IsFree t.total n
        (heapGetStartBlockLoop t n fuel i (i - st) (if st < i then (st : Int) else -1))
  | 0, i, st, hi, hst, hrun, hmax, hnone => by
    obtain rfl : i = t.total := by omega
    have hno : 0 < n → ¬HasRun t.IsFree t.total n := fun hn => (hnone hn).2.not_hasRun
    rcases Nat.lt_or_ge st t.total with hlt | hge
    · simpa [heapGetStartBlockLoop, hlt] using Found.short st hno ⟨hlt, hrun, hmax⟩
    · obtain rfl : st = t.total := by omega
      simpa [heapGetStartBlockLoop] using Found.full hno hmax
  | fuel + 1, i, st, hi, hst, hrun, hmax, hnone => by
    have hbs : (if (if st < i then (st : Int) else -1) = -1 then (i : Int)
        else if st < i then (st : Int) else -1) = st := by
      rcases Nat.lt_or_ge st i with hlt | hge
      · simp only [if_pos hlt]
        exact if_neg (by omega)
      · simp only [if_neg (Nat.not_lt.mpr hge), if_true]
        omega
    simp only [heapGetStartBlockLoop, heapGetEntryType_ne_iff]
    by_cases hf : t.IsFree i
    · -- the current run grows by cell `i`
      rw [if_neg (not_not.mpr hf), hbs]
      have hgrow : IsRun t.IsFree st (i + 1 - st) := by
        have := hrun.snoc (by rwa [Nat.add_sub_cancel' hst])
        rwa [show i - st + 1 = i + 1 - st by omega] at this
      by_cases hn : i - st + 1 = n
      · rw [if_pos hn]
        have hpos : 0 < n := by omega
        refine .fit st hpos ⟨by omega, hgrow.mono (by omega), fun s' hs' hr => ?_⟩
        exact (hnone hpos).2 s' (by omega) hr
      · rw [if_neg hn]
        have := heapGetStartBlockLoop_found t n fuel (i + 1) st (by omega) (by omega) hgrow hmax
          fun h0 => ⟨by have := (hnone h0).1; omega,
            (hnone h0).2.short hmax (by have := (hnone h0).1; omega) hst⟩
        rwa [if_pos (by omega), show i + 1 - st = i - st + 1 by omega] at this
    · -- cell `i` ends the current run
      rw [if_pos hf]
      have := heapGetStartBlockLoop_found t n fuel (i + 1) (i + 1) (by omega) le_rfl
        (by simpa using isRun_zero) (.inr (by simpa using hf))
        fun h0 => ⟨by omega, (hnone h0).2.blocked h0 hf⟩
      simpa using this

/-- The search answers the leftmost run of `n` free blocks, the start of the last free
run when none is long enough (or none was asked for), and -1 when the last block is
taken as well. -/
theorem heapGetStartBlockLoop_spec (t : HeapTable) (n : ℕ) :
    Found t.IsFree t.total n (heapGetStartBlockLoop t n t.total 0 0 (-1)) :=
  heapGetStartBlockLoop_found t n t.total 0 0 (by omega) le_rfl isRun_zero (.inl rfl)
    fun hn => ⟨hn, noneBelow_zero hn⟩

/-- What `heap_get_start_block` answers. -/
theorem heapGetStartBlock_cases (h : Heap) (n : ℕ) :
    (∃ s : ℕ, heapGetStartBlock h n = s ∧ 0 < n ∧ FirstRun h.table.IsFree h.table.total n s) ∨
    (∃ s : ℕ, heapGetStartBlock h n = s ∧ (0 < n → ¬HasRun h.table.IsFree h.table.total n) ∧
      LastRun h.table.IsFree h.table.total s) ∨
    (heapGetStartBlock h n = -ENOMEM ∧ (0 < n → ¬HasRun h.table.IsFree h.table.total n) ∧
      (h.table.total = 0 ∨ ¬h.table.IsFree (h.table.total - 1))) := by
  unfold heapGetStartBlock
  have hfound := heapGetStartBlockLoop_spec h.table n
  generalize heapGetStartBlockLoop h.table n h.table.total 0 0 (-1) = r at hfound
  cases hfound with
  | fit s hn hs => exact .inl ⟨s, if_neg (by omega), hn, hs⟩
  | short s hno hs => exact .inr (.inl ⟨s, if_neg (by omega), hno, hs⟩)
  | full hno hlast => exact .inr (.inr ⟨if_pos rfl, hno, hlast⟩)

/-! ## Held ranges -/

/-- The byte of block `k` of an allocation of `n` blocks. -/
def blockByte (n k : ℕ) : UInt8 :=
  blockTaken ||| (if k = 0 then blockIsFirst else 0) ||| (if k + 1 < n then blockHasNext else 0)

/-- No entry of an allocation is free. -/
theorem blockByte_ne_free (n k : ℕ) : blockByte n k ≠ blockFree := by
  unfold blockByte
  split_ifs <;> decide

/-- The last entry has no next one. -/
theorem blockByte_hasNext (n k : ℕ) : blockByte n k &&& blockHasNext = 0 ↔ ¬k + 1 < n := by
  unfold blockByte
  split_ifs <;> simp_all <;> decide

/-- The first entry is marked. -/
theorem blockByte_isFirst (n k : ℕ) : blockByte n k &&& blockIsFirst = 0 ↔ k ≠ 0 := by
  unfold blockByte
  split_ifs <;> simp_all <;> decide

/-- The blocks from `s` on are one allocation of `n` blocks, flags included, as far as
they lie in the table. -/
structure Held (t : HeapTable) (s n : ℕ) : Prop where
  pos : 0 < n
  lt : s < t.total
  byte : ∀ k < n, s + k < t.total → t.entries ((s + k : ℕ) : Int) = blockByte n k

namespace Held

variable {t t' : HeapTable} {s s' n n' : ℕ}

/-- The blocks of an allocation are taken. -/
theorem not_isFree (h : Held t s n) {i : ℕ} (hi : s ≤ i) (hi' : i < s + n) (hi'' : i < t.total) :
    ¬t.IsFree i := by
  unfold HeapTable.IsFree
  rw [show i = s + (i - s) by omega, h.byte _ (by omega) (by omega)]
  exact blockByte_ne_free _ _

/-- The first of them in particular. -/
theorem not_isFree_start (h : Held t s n) : ¬t.IsFree s :=
  h.not_isFree le_rfl (by have := h.pos; omega) h.lt

/-- The start of one held range is not inside another one. -/
theorem start_not_inside (h : Held t s n) (h' : Held t s' n') (hne : s ≠ s') :
    ¬(s ≤ s' ∧ s' < s + n) := by
  rintro ⟨hle, hlt⟩
  have h0 : blockByte n (s' - s) = blockByte n' 0 := by
    rw [← h.byte _ (by omega) (by have := h'.lt; omega), ← h'.byte 0 h'.pos h'.lt]
    congr 2
    omega
  have h1 := (blockByte_isFirst n (s' - s)).mpr (by omega)
  rw [h0] at h1
  exact (blockByte_isFirst n' 0).mp h1 rfl

/-- Held ranges with different starts are disjoint. -/
theorem disjoint (h : Held t s n) (h' : Held t s' n') (hne : s ≠ s') :
    s + n ≤ s' ∨ s' + n' ≤ s := by
  have := h.start_not_inside h' hne
  have := h'.start_not_inside h hne.symm
  omega

/-- A held range survives a change of the table outside it. -/
theorem congr (h : Held t s n) (ht : t'.total = t.total)
    (he : ∀ i : ℕ, s ≤ i → i < s + n → i < t.total → t'.entries i = t.entries i) :
    Held t' s n :=
  ⟨h.pos, ht ▸ h.lt, fun k hk hin => (he _ (by omega) (by omega) (by omega)).trans
    (h.byte k hk (by omega))⟩

end Held

/-! ## Marking blocks -/

/-- Marking does not change the size. -/
theorem heapMarkBlocksTakenLoop_total (e : Int) :
    ∀ (fuel : ℕ) (i : Int) (b : UInt8) (t : HeapTable),
      (heapMarkBlocksTakenLoop e fuel i b t).total = t.total
  | 0, _, _, _ => rfl
  | fuel + 1, i, b, t => by
    rw [heapMarkBlocksTakenLoop, heapMarkBlocksTakenLoop_total e fuel]
    rfl

/-- Which entries are marked, and how, by recursion on their number. -/
theorem heapMarkBlocksTakenLoop_entries (e : Int) :
    ∀ (fuel : ℕ) (i : Int) (b : UInt8) (t : HeapTable) (j : Int),
      (heapMarkBlocksTakenLoop e fuel i b t).entries j =
        if i ≤ j ∧ j < i + fuel then
          if j = i then b else if j = e then blockTaken else blockTaken ||| blockHasNext
        else t.entries j
  | 0, i, b, t, j => by
    rw [heapMarkBlocksTakenLoop, if_neg (by omega)]
  | fuel + 1, i, b, t, j => by
    rw [heapMarkBlocksTakenLoop, heapMarkBlocksTakenLoop_entries e fuel, HeapTable.setEntry_entries]
    push_cast
    rcases lt_trichotomy j i with hlt | rfl | hgt
    · rw [if_neg (by omega), if_neg (by omega), if_neg (by omega)]
    · rw [if_neg (by omega), if_pos rfl, if_pos (by omega), if_pos rfl]
    · have hne : j ≠ i := by omega
      by_cases hin : j < i + 1 + fuel
      · have h1 : i + 1 ≤ j ∧ j < i + 1 + fuel := by omega
        have h2 : i ≤ j ∧ j < i + (fuel + 1) := by omega
        simp only [if_pos h1, if_pos h2, if_neg hne]
        by_cases hnext : j = i + 1
        · rw [if_pos hnext]
          by_cases hend : j = e
          · rw [if_pos hend, if_neg (by omega)]
          · rw [if_neg hend, if_pos (by omega)]
        · rw [if_neg hnext]
      · rw [if_neg (by omega), if_neg hne, if_neg (by omega)]

@[simp] theorem heapMarkBlocksTaken_saddr (h : Heap) (s : Int) (n : ℕ) :
    (heapMarkBlocksTaken h s n).saddr = h.saddr := rfl

@[simp] theorem heapMarkBlocksTaken_total (h : Heap) (s : Int) (n : ℕ) :
    (heapMarkBlocksTaken h s n).table.total = h.table.total :=
  heapMarkBlocksTakenLoop_total _ _ _ _ _

/-- Marking writes the bytes of one allocation and nothing else. -/
theorem heapMarkBlocksTaken_entries (h : Heap) (s n : ℕ) (j : Int) :
    (heapMarkBlocksTaken h s n).table.entries j =
      if (s : Int) ≤ j ∧ j < s + n then blockByte n (j - s).toNat else h.table.entries j := by
  simp only [heapMarkBlocksTaken, heapMarkBlocksTakenLoop_entries]
  by_cases hj : (s : Int) ≤ j ∧ j < s + n
  · rw [if_pos hj, if_pos hj]
    unfold blockByte
    by_cases hs : j = s
    · subst hs
      rw [if_pos rfl]
      by_cases hn : 1 < n
      · simp [hn]
      · simp [hn]
    · rw [if_neg hs, if_neg (show (j - s).toNat ≠ 0 by omega)]
      by_cases he : j = s + n - 1
      · rw [if_pos he, if_neg (by omega)]
        rfl
      · rw [if_neg he, if_pos (by omega)]
        rfl
  · rw [if_neg hj, if_neg hj]

/-- What is marked is held. -/
theorem heapMarkBlocksTaken_held (h : Heap) {s n : ℕ} (hs : s < h.table.total) (hn : 0 < n) :
    Held (heapMarkBlocksTaken h s n).table s n where
  pos := hn
  lt := by simpa using hs
  byte k hk _ := by
    rw [heapMarkBlocksTaken_entries, if_pos (by omega)]
    congr
    omega

/-! ## Clearing blocks -/

/-- Freeing does not change the size. -/
theorem heapMarkBlocksFreeLoop_total :
    ∀ (fuel : ℕ) (i : Int) (t : HeapTable), (heapMarkBlocksFreeLoop fuel i t).total = t.total
  | 0, _, _ => rfl
  | fuel + 1, i, t => by
    rw [heapMarkBlocksFreeLoop]
    split_ifs
    · rfl
    · rw [heapMarkBlocksFreeLoop_total fuel]
      rfl

/-- Clearing leaves a byte as it is or makes it free. -/
theorem heapMarkBlocksFreeLoop_eq_or :
    ∀ (fuel : ℕ) (i : Int) (t : HeapTable) (j : Int),
      (heapMarkBlocksFreeLoop fuel i t).entries j = t.entries j ∨
        (heapMarkBlocksFreeLoop fuel i t).entries j = blockFree
  | 0, _, _, _ => .inl rfl
  | fuel + 1, i, t, j => by
    have hset : (t.setEntry i blockFree).entries j = t.entries j ∨
        (t.setEntry i blockFree).entries j = blockFree := by
      rw [HeapTable.setEntry_entries]
      split_ifs <;> simp
    rw [heapMarkBlocksFreeLoop]
    split_ifs
    · exact hset
    · rcases heapMarkBlocksFreeLoop_eq_or fuel (i + 1) (t.setEntry i blockFree) j with h | h
      · rw [h]
        exact hset
      · exact .inr h

/-- Clearing from `i` on does not touch the bytes before `i`. -/
theorem heapMarkBlocksFreeLoop_below :
    ∀ (fuel : ℕ) (i : Int) (t : HeapTable) (j : Int), j < i →
      (heapMarkBlocksFreeLoop fuel i t).entries j = t.entries j
  | 0, _, _, _, _ => rfl
  | fuel + 1, i, t, j, hj => by
    have hset : (t.setEntry i blockFree).entries j = t.entries j := if_neg (by omega)
    rw [heapMarkBlocksFreeLoop]
    split_ifs
    · exact hset
    · rw [heapMarkBlocksFreeLoop_below fuel (i + 1) _ j (by omega), hset]

/-- Clearing stops at the first byte without the next-block flag. -/
theorem heapMarkBlocksFreeLoop_above :
    ∀ (fuel : ℕ) (i : Int) (t : HeapTable) (g j : Int), i ≤ g →
      t.entries g &&& blockHasNext = 0 → g < j →
      (heapMarkBlocksFreeLoop fuel i t).entries j = t.entries j
  | 0, _, _, _, _, _, _, _ => rfl
  | fuel + 1, i, t, g, j, hg, hnext, hj => by
    have hset : (t.setEntry i blockFree).entries j = t.entries j := if_neg (by omega)
    rw [heapMarkBlocksFreeLoop]
    split_ifs with hi
    · exact hset
    · have hne : i ≠ g := by
        rintro rfl
        exact hi hnext
      rw [heapMarkBlocksFreeLoop_above fuel (i + 1) _ g j (by omega) ?_ hj, hset]
      rwa [HeapTable.setEntry_entries, if_neg hne.symm]

/-- Clearing a chain of `m` blocks clears exactly these, up to the end of the table. -/
theorem heapMarkBlocksFreeLoop_chain :
    ∀ (fuel : ℕ) (i : Int) (t : HeapTable) (m : ℕ), 0 < m →
      (∀ k < m, k < fuel → (t.entries (i + k) &&& blockHasNext = 0 ↔ ¬k + 1 < m)) → ∀ j : Int,
      (heapMarkBlocksFreeLoop fuel i t).entries j =
        if i ≤ j ∧ j < i + m ∧ j < i + fuel then blockFree else t.entries j
  | 0, i, t, m, _, _, j => by
    rw [heapMarkBlocksFreeLoop, if_neg (by omega)]
  | fuel + 1, i, t, m, hm, hchain, j => by
    have h0 := hchain 0 hm (by omega)
    rw [Nat.cast_zero, add_zero] at h0
    rw [heapMarkBlocksFreeLoop]
    by_cases hlast : t.entries i &&& blockHasNext = 0
    · have hm1 : m = 1 := by
        have := h0.mp hlast
        omega
      rw [if_pos hlast, HeapTable.setEntry_entries]
      by_cases hj : j = i
      · rw [if_pos hj, if_pos (by omega)]
      · rw [if_neg hj, if_neg (by omega)]
    · have hm1 : 1 < m := by
        by_contra hcon
        exact hlast (h0.mpr (by omega))
      rw [if_neg hlast, heapMarkBlocksFreeLoop_chain fuel (i + 1) _ (m - 1) (by omega)]
      · rw [HeapTable.setEntry_entries]
        rcases lt_trichotomy j i with hj | hj | hj
        · rw [if_neg (by omega), if_neg (by omega), if_neg (by omega)]
        · rw [if_neg (by omega), if_pos hj, if_pos (by omega)]
        · rw [if_neg (show j ≠ i by omega)]
          by_cases hin : j < i + m ∧ j < i + (fuel + 1 : ℕ)
          · rw [if_pos (by omega), if_pos (by omega)]
          · rw [if_neg (by omega), if_neg (by omega)]
      · intro k hk hkf
        rw [HeapTable.setEntry_entries, if_neg (by omega)]
        have := hchain (k + 1) (by omega) (by omega)
        rw [show i + 1 + (k : Int) = i + ((k + 1 : ℕ) : Int) by omega, this]
        omega

@[simp] theorem heapMarkBlocksFree_saddr (h : Heap) (s : Int) :
    (heapMarkBlocksFree h s).saddr = h.saddr := rfl

@[simp] theorem heapMarkBlocksFree_total (h : Heap) (s : Int) :
    (heapMarkBlocksFree h s).table.total = h.table.total :=
  heapMarkBlocksFreeLoop_total _ _ _

/-- Freeing the start of a held range clears exactly the range, as far as it lies in
the table. -/
theorem heapMarkBlocksFree_held {h : Heap} {s n : ℕ} (hh : Held h.table s n) (j : Int) :
    (heapMarkBlocksFree h s).table.entries j =
      if (s : Int) ≤ j ∧ j < s + n ∧ j < h.table.total then blockFree else h.table.entries j := by
  have hchain : ∀ k < n, k < (h.table.total - (s : Int)).toNat →
      (h.table.entries ((s : Int) + k) &&& blockHasNext = 0 ↔ ¬k + 1 < n) := by
    intro k hk hkf
    have := hh.byte k hk (by omega)
    push_cast at this
    rw [this, blockByte_hasNext]
  have := heapMarkBlocksFreeLoop_chain (h.table.total - (s : Int)).toNat s h.table n hh.pos hchain j
  simp only [heapMarkBlocksFree, this]
  by_cases hj : (s : Int) ≤ j ∧ j < s + n ∧ j < h.table.total
  · rw [if_pos hj, if_pos (by omega)]
  · rw [if_neg hj, if_neg (by omega)]

/-- Taking free blocks and freeing them restores the table. -/
theorem heapMarkBlocksFree_taken {h : Heap} {s n : ℕ} (hn : 0 < n) (hle : s + n ≤ h.table.total)
    (hrun : ∀ i, s ≤ i → i < s + n → h.table.IsFree i) :
    (heapMarkBlocksFree (heapMarkBlocksTaken h s n) s).table = h.table := by
  have hheld := heapMarkBlocksTaken_held h (s := s) (n := n) (by omega) hn
  refine HeapTable.eq_of_entries (by simp) (funext fun j => ?_)
  rw [heapMarkBlocksFree_held hheld, heapMarkBlocksTaken_entries, heapMarkBlocksTaken_total]
  by_cases hj : (s : Int) ≤ j ∧ j < s + n
  · have hfree := hrun j.toNat (by omega) (by omega)
    rw [HeapTable.IsFree, Int.toNat_of_nonneg (by omega)] at hfree
    rw [if_pos (by omega), hfree]
  · rw [if_neg (by omega), if_neg hj]

/-- Freeing one held range leaves the others held. -/
theorem Held.free_other {h : Heap} {s n s' n' : ℕ} (hh : Held h.table s n)
    (hh' : Held h.table s' n') (hne : s' ≠ s) : Held (heapMarkBlocksFree h s).table s' n' := by
  have hdisj := hh.disjoint hh' hne.symm
  refine hh'.congr (by simp) fun i hi hi' _ => ?_
  rw [heapMarkBlocksFree_held hh, if_neg (by omega)]

/-- Marking free blocks leaves the held ranges held. -/
theorem Held.mark_other {h : Heap} {s n s' n' : ℕ} (hh' : Held h.table s' n')
    (hdisj : s + n ≤ s' ∨ s' + n' ≤ s) : Held (heapMarkBlocksTaken h s n).table s' n' := by
  refine hh'.congr (by simp) fun i hi hi' _ => ?_
  rw [heapMarkBlocksTaken_entries, if_neg (by omega)]

/-! ## Tables that only grow -/

/-- Some byte below the table, from index -4096 on, has no next-block flag. The boot
sector ends right before the table, and the byte at index -2 is 0x55. -/
def Guarded (t : HeapTable) : Prop :=
  ∃ g : Int, -4096 ≤ g ∧ g < 0 ∧ t.entries g &&& blockHasNext = 0

/-- Every block taken in `t` is in `t'` as it was, and no chain of the blocks that were
free runs into it. -/
structure Keeps (t t' : HeapTable) : Prop where
  total : t'.total = t.total
  taken : ∀ b : ℕ, b < t.total → ¬t.IsFree b → t'.entries b = t.entries b
  apart : ∀ b : ℕ, b + 1 < t.total → ¬t.IsFree (b + 1) → t.IsFree b →
    t'.entries b &&& blockHasNext = 0
  guarded : Guarded t → Guarded t'

/-- Between a cell that has a property and a later one that has not, the property ends. -/
theorem exists_last_before {p : ℕ → Prop} {x b : ℕ} (hx : p x) (hb : ¬p b) (hle : x ≤ b) :
    ∃ g, x ≤ g ∧ g < b ∧ p g ∧ ¬p (g + 1) := by
  induction b, hle using Nat.le_induction with
  | base => exact absurd hx hb
  | succ b hle ih =>
    by_cases hpb : p b
    · exact ⟨b, hle, by omega, hpb, hb⟩
    · obtain ⟨g, h1, h2, h3, h4⟩ := ih hpb
      exact ⟨g, h1, by omega, h3, h4⟩

namespace Keeps

variable {t t' t'' : HeapTable} {h : Heap} {b s n : ℕ}

theorem refl (t : HeapTable) : Keeps t t :=
  ⟨rfl, fun _ _ _ => rfl, fun b _ _ hb => by rw [hb]; rfl, id⟩

theorem not_isFree (hk : Keeps t t') (hb : b < t.total) (hf : ¬t.IsFree b) : ¬t'.IsFree b := by
  unfold HeapTable.IsFree at hf ⊢
  rwa [hk.taken b hb hf]

theorem trans (hk : Keeps t t') (hk' : Keeps t' t'') : Keeps t t'' where
  total := hk'.total.trans hk.total
  taken b hb hf := by
    rw [hk'.taken b (hk.total ▸ hb) (hk.not_isFree hb hf), hk.taken b hb hf]
  apart b hb hnext hf := by
    by_cases hf' : t'.IsFree b
    · exact hk'.apart b (hk.total ▸ hb) (hk.not_isFree hb hnext) hf'
    · rw [hk'.taken b (by rw [hk.total]; omega) hf']
      exact hk.apart b hb hnext hf
  guarded hg := hk'.guarded (hk.guarded hg)

/-- A held range stays held. -/
theorem held (hk : Keeps t t') (hh : Held t s n) : Held t' s n :=
  hh.congr hk.total fun i hi hi' hin => hk.taken i hin (hh.not_isFree hi hi' hin)

/-- Marking free blocks keeps the taken ones. -/
theorem mark (h : Heap) (hrun : ∀ i, s ≤ i → i < s + n → i < h.table.total → h.table.IsFree i) :
    Keeps h.table (heapMarkBlocksTaken h s n).table where
  total := by simp
  taken b hb hf := by
    rw [heapMarkBlocksTaken_entries, if_neg]
    rintro ⟨h1, h2⟩
    exact hf (hrun b (by omega) (by omega) hb)
  apart b hb hnext hf := by
    rw [heapMarkBlocksTaken_entries]
    split_ifs with hin
    · rw [blockByte_hasNext]
      intro hlt
      exact hnext (hrun (b + 1) (by omega) (by omega) hb)
    · rw [hf]
      rfl
  guarded := by
    rintro ⟨g, hlo, hhi, hg⟩
    exact ⟨g, hlo, hhi, by rwa [heapMarkBlocksTaken_entries, if_neg (by omega)]⟩

/-- A free block whose successor is taken still has no next one. -/
theorem free_apart (hk : Keeps t h.table) (x : Int) (b : ℕ) (hb : b + 1 < t.total)
    (hnext : ¬t.IsFree (b + 1)) (hf : t.IsFree b) :
    (heapMarkBlocksFree h x).table.entries b &&& blockHasNext = 0 := by
  rcases heapMarkBlocksFreeLoop_eq_or (h.table.total - x).toNat x h.table b with he | he
  · rw [heapMarkBlocksFree, he]
    exact hk.apart b hb hnext hf
  · rw [heapMarkBlocksFree, he]
    rfl

/-- The guard below the table stays. -/
theorem free_guarded (hk : Keeps t h.table) (x : Int) (hg : Guarded t) :
    Guarded (heapMarkBlocksFree h x).table := by
  obtain ⟨g, hlo, hhi, hg⟩ := hk.guarded hg
  refine ⟨g, hlo, hhi, ?_⟩
  rcases heapMarkBlocksFreeLoop_eq_or (h.table.total - x).toNat x h.table g with he | he
  · rwa [heapMarkBlocksFree, he]
  · rw [heapMarkBlocksFree, he]
    rfl

/-- Freeing from a block that is free in `t` keeps the blocks taken in `t`. -/
theorem free (hk : Keeps t h.table) {x : ℕ} (hx : x < t.total → t.IsFree x) :
    Keeps t (heapMarkBlocksFree h x).table where
  total := by simpa using hk.total
  taken b hb hf := by
    rw [← hk.taken b hb hf]
    rcases Nat.lt_or_ge b x with hlt | hge
    · exact heapMarkBlocksFreeLoop_below _ _ _ _ (by omega)
    · obtain ⟨g, hxg, hgb, hg, hg'⟩ := exists_last_before (hx (by omega)) hf hge
      exact heapMarkBlocksFreeLoop_above _ _ _ g _ (by omega)
        (hk.apart g (by omega) hg' hg) (by omega)
  apart := hk.free_apart x
  guarded := hk.free_guarded x

/-- Freeing the null address keeps the blocks taken in a guarded table. -/
theorem free_null (hk : Keeps t h.table) (hg : Guarded t) :
    Keeps t (heapMarkBlocksFree h (-4096)).table where
  total := by simpa using hk.total
  taken b hb hf := by
    obtain ⟨g, hlo, hhi, hnext⟩ := hk.guarded hg
    rw [← hk.taken b hb hf]
    exact heapMarkBlocksFreeLoop_above _ _ _ g _ hlo hnext (by omega)
  apart := hk.free_apart _
  guarded := hk.free_guarded _

end Keeps

end Hyperion
