import Hyperion.HeapTable
import Hyperion.Lib.Trace
import Mathlib.Data.List.Nodup

/-!
# The flags of the block table

Runs of `heap_mark_blocks_taken` and `heap_mark_blocks_free` from a table whose entries are
all free. The state carries the ranges taken and not yet freed (`MarkState`). In every state of
a run the flags are those of the held ranges (`Decodes`), so freeing clears exactly the range
that starts at the block, and undoes taking it (`MarksExact`).

The length of a range is nowhere in the table. `heap_mark_blocks_free` goes from the first block
on as long as the entries have the flag for a next block, so what it frees is right only if no two
ranges run into each other : the entry of the last block of a held range has no such flag
(`MarkInv.entry_eq`), also when the next range begins right behind it.

`MarkInv` is the invariant : the held ranges are in the table and apart, and the other blocks are
free. `MarkInv.take` and `MarkInv.free` are its steps. `blockFlags_decode` is the result for every
run.
-/

namespace Hyperion

/-- A heap, and the ranges taken and not yet freed, each with its length. -/
structure MarkState where
  heap : Heap
  held : List (ℕ × ℕ)

inductive MarkCall
  | take (s n : ℕ)
  | free (s n : ℕ)

/-- A range of free blocks is taken, or a held range is freed by its start. -/
inductive MarkStep : MarkState → MarkCall → MarkState → Prop
  | take {st : MarkState} {s n : ℕ} : 1 ≤ n → s + n ≤ st.heap.table.total →
      (∀ i, s ≤ i → i < s + n → st.heap.table.IsFree i) →
      MarkStep st (.take s n) ⟨heapMarkBlocksTaken st.heap s n, (s, n) :: st.held⟩
  | free {st : MarkState} {s n : ℕ} : (s, n) ∈ st.held →
      MarkStep st (.free s n) ⟨heapMarkBlocksFree st.heap s, st.held.erase (s, n)⟩

/-- Block `i` is in the range `a`. -/
def InRange (a : ℕ × ℕ) (i : ℕ) : Prop := a.1 ≤ i ∧ i < a.1 + a.2

/-- The entries of `t` are those of the held ranges. -/
structure Decodes (t : HeapTable) (held : List (ℕ × ℕ)) : Prop where
  free : ∀ i < t.total, t.IsFree i ↔ ∀ a ∈ held, ¬InRange a i
  first : ∀ i < t.total, t.entries i &&& blockIsFirst ≠ 0 ↔ ∃ a ∈ held, i = a.1
  next : ∀ i < t.total, t.entries i &&& blockHasNext ≠ 0 ↔
    ∃ a ∈ held, InRange a i ∧ i + 1 < a.1 + a.2

/-- Freeing the range `a` clears exactly its entries, and taking `n` blocks from `s` on and
freeing them again changes nothing. -/
structure MarksExact (st : MarkState) : Prop where
  release : ∀ a ∈ st.held, ∀ j : Int, (heapMarkBlocksFree st.heap a.1).table.entries j =
    if (a.1 : Int) ≤ j ∧ j < a.1 + a.2 then blockFree else st.heap.table.entries j
  restore : ∀ s n, 1 ≤ n → s + n ≤ st.heap.table.total →
    (∀ i, s ≤ i → i < s + n → st.heap.table.IsFree i) →
    (heapMarkBlocksFree (heapMarkBlocksTaken st.heap s n) s).table = st.heap.table

/-- The invariant : the held ranges are in the table, apart, and the other blocks are free. -/
structure MarkInv (st : MarkState) : Prop where
  held : ∀ a ∈ st.held, Held st.heap.table a.1 a.2 ∧ a.1 + a.2 ≤ st.heap.table.total
  nodup : (st.held.map Prod.fst).Nodup
  covered : ∀ i < st.heap.table.total, ¬st.heap.table.IsFree i → ∃ a ∈ st.held, InRange a i

namespace MarkInv

variable {st : MarkState} {s n : ℕ}

/-- The entry of a block in a held range. -/
theorem entry_eq (hi : MarkInv st) {a : ℕ × ℕ} (ha : a ∈ st.held) {i : ℕ} (hin : InRange a i) :
    st.heap.table.entries i = blockByte a.2 (i - a.1) := by
  obtain ⟨hheld, hle⟩ := hi.held a ha
  obtain ⟨hlo, hhi⟩ := hin
  have hbyte := hheld.byte (i - a.1) (by omega) (by omega)
  rwa [Nat.add_sub_cancel' hlo] at hbyte

theorem isFree_iff (hi : MarkInv st) {i : ℕ} (hlt : i < st.heap.table.total) :
    st.heap.table.IsFree i ↔ ∀ a ∈ st.held, ¬InRange a i := by
  constructor
  · intro hf a ha hin
    exact (hi.held a ha).1.not_isFree hin.1 hin.2 hlt hf
  · intro hno
    by_contra hf
    obtain ⟨a, ha, hin⟩ := hi.covered i hlt hf
    exact hno a ha hin

theorem decodes (hi : MarkInv st) : Decodes st.heap.table st.held where
  free i hlt := hi.isFree_iff hlt
  first i hlt := by
    constructor
    · intro hbit
      have hf : ¬st.heap.table.IsFree i := by
        intro hf
        rw [hf] at hbit
        exact hbit (by decide)
      obtain ⟨a, ha, hin⟩ := hi.covered i hlt hf
      rw [hi.entry_eq ha hin, ne_eq, blockByte_isFirst, not_not] at hbit
      exact ⟨a, ha, by have := hin.1; omega⟩
    · rintro ⟨a, ha, rfl⟩
      have hpos := (hi.held a ha).1.pos
      rw [hi.entry_eq ha ⟨le_rfl, by omega⟩, ne_eq, blockByte_isFirst]
      omega
  next i hlt := by
    constructor
    · intro hbit
      have hf : ¬st.heap.table.IsFree i := by
        intro hf
        rw [hf] at hbit
        exact hbit (by decide)
      obtain ⟨a, ha, hin⟩ := hi.covered i hlt hf
      rw [hi.entry_eq ha hin, ne_eq, blockByte_hasNext, not_not] at hbit
      exact ⟨a, ha, hin, by have := hin.1; omega⟩
    · rintro ⟨a, ha, hin, hnext⟩
      have := hin.1
      rw [hi.entry_eq ha hin, ne_eq, blockByte_hasNext]
      omega

/-- A held range starts outside the free blocks. -/
theorem start_ne (hi : MarkInv st) (hn : 1 ≤ n)
    (hrun : ∀ i, s ≤ i → i < s + n → st.heap.table.IsFree i)
    {a : ℕ × ℕ} (ha : a ∈ st.held) : s + n ≤ a.1 ∨ a.1 + a.2 ≤ s := by
  obtain ⟨hheld, hle⟩ := hi.held a ha
  have hpos := hheld.pos
  by_contra hcon
  have hmeet : ∃ i, s ≤ i ∧ i < s + n ∧ a.1 ≤ i ∧ i < a.1 + a.2 := ⟨max s a.1, by omega⟩
  obtain ⟨i, hsi, hin, hai, hia⟩ := hmeet
  exact hheld.not_isFree hai hia (by omega) (hrun i hsi hin)

theorem marksExact (hi : MarkInv st) : MarksExact st where
  release a ha j := by
    obtain ⟨hheld, hle⟩ := hi.held a ha
    rw [heapMarkBlocksFree_held hheld]
    by_cases hj : (a.1 : Int) ≤ j ∧ j < a.1 + a.2
    · rw [if_pos hj, if_pos (by omega)]
    · rw [if_neg hj, if_neg (by omega)]
  restore s n hn hle hrun := heapMarkBlocksFree_taken hn hle hrun

/-- Taking free blocks keeps the invariant. -/
theorem take (hi : MarkInv st) (hn : 1 ≤ n) (hle : s + n ≤ st.heap.table.total)
    (hrun : ∀ i, s ≤ i → i < s + n → st.heap.table.IsFree i) :
    MarkInv ⟨heapMarkBlocksTaken st.heap s n, (s, n) :: st.held⟩ where
  held a ha := by
    rcases List.mem_cons.mp ha with rfl | ha
    · exact ⟨heapMarkBlocksTaken_held st.heap (by omega) (by omega), by simpa using hle⟩
    · obtain ⟨hheld, hin⟩ := hi.held a ha
      exact ⟨hheld.mark_other (hi.start_ne hn hrun ha), by simpa using hin⟩
  nodup := by
    refine List.nodup_cons.mpr ⟨fun hmem => ?_, hi.nodup⟩
    obtain ⟨a, ha, hstart⟩ := List.mem_map.mp hmem
    have hpos := (hi.held a ha).1.pos
    have := hi.start_ne hn hrun ha
    omega
  covered i hlt hf := by
    simp only [heapMarkBlocksTaken_total] at hlt
    by_cases hin : s ≤ i ∧ i < s + n
    · exact ⟨(s, n), by simp, hin⟩
    · rw [HeapTable.IsFree, heapMarkBlocksTaken_entries, if_neg (by omega)] at hf
      obtain ⟨a, ha, hina⟩ := hi.covered i hlt hf
      exact ⟨a, List.mem_cons_of_mem _ ha, hina⟩

/-- The other held ranges have another start. -/
theorem fst_ne_of_mem_erase (hi : MarkInv st) (hmem : (s, n) ∈ st.held) {a : ℕ × ℕ}
    (ha : a ∈ st.held.erase (s, n)) : a.1 ≠ s := by
  intro hstart
  have heq : a = (s, n) :=
    List.inj_on_of_nodup_map hi.nodup (List.mem_of_mem_erase ha) hmem hstart
  rw [heq] at ha
  exact hi.nodup.of_map.not_mem_erase ha

/-- Freeing a held range keeps the invariant. -/
theorem free (hi : MarkInv st) (hmem : (s, n) ∈ st.held) :
    MarkInv ⟨heapMarkBlocksFree st.heap s, st.held.erase (s, n)⟩ where
  held a ha := by
    obtain ⟨hheld, hin⟩ := hi.held a (List.mem_of_mem_erase ha)
    exact ⟨(hi.held _ hmem).1.free_other hheld (hi.fst_ne_of_mem_erase hmem ha),
      by simpa using hin⟩
  nodup := hi.nodup.sublist (List.erase_sublist.map Prod.fst)
  covered i hlt hf := by
    simp only [heapMarkBlocksFree_total] at hlt
    have hheld := (hi.held _ hmem).1
    rw [HeapTable.IsFree, heapMarkBlocksFree_held hheld] at hf
    by_cases hin : s ≤ i ∧ i < s + n
    · exact absurd (if_pos (by omega)) hf
    · rw [if_neg (by omega)] at hf
      obtain ⟨a, ha, hina⟩ := hi.covered i hlt hf
      refine ⟨a, (List.mem_erase_of_ne ?_).mpr ha, hina⟩
      rintro rfl
      exact hin hina

/-- With all blocks free and no range held, the invariant holds. -/
theorem init {heap : Heap} (hfree : ∀ i < heap.table.total, heap.table.IsFree i) :
    MarkInv ⟨heap, []⟩ where
  held a ha := absurd ha (by simp)
  nodup := List.nodup_nil
  covered i hlt hf := absurd (hfree i hlt) hf

theorem step {st' : MarkState} {c : MarkCall} (h : MarkStep st c st') (hi : MarkInv st) :
    MarkInv st' := by
  cases h with
  | take hn hle hrun => exact hi.take hn hle hrun
  | free hmem => exact hi.free hmem

/-- The invariant holds in every state of a run. -/
theorem run {st' : MarkState} {tr : List (MarkState × MarkCall × MarkState)}
    (h : Trace MarkStep st tr st') (hi : MarkInv st) : MarkInv st' :=
  (h.invariant (C := fun _ _ _ => True) hi (fun _ _ _ hs _ => step hs) fun _ _ => trivial).2

end MarkInv

/-- From a table whose entries are all free, whatever ranges of free blocks are taken and
whatever held ranges are freed, the flags say which ranges are held : freeing the start of a
range clears exactly it, and taking free blocks and freeing them restores the table. -/
theorem blockFlags_decode {heap : Heap} {tr : List (MarkState × MarkCall × MarkState)}
    {st : MarkState} (hfree : ∀ i < heap.table.total, heap.table.IsFree i)
    (h : Trace MarkStep ⟨heap, []⟩ tr st) :
    Decodes st.heap.table st.held ∧ MarksExact st := by
  have hi := MarkInv.run h (.init hfree)
  exact ⟨hi.decodes, hi.marksExact⟩

/-- Two adjacent ranges are taken, and the first is freed. -/
theorem blockFlags_decode_adjacent :
    ∃ tr st, Trace MarkStep ⟨⟨⟨fun _ => blockFree, 4⟩, 4096⟩, []⟩ tr st ∧ st.held = [(2, 1)] ∧
      Decodes st.heap.table st.held ∧ MarksExact st := by
  have hfirst : MarkStep ⟨⟨⟨fun _ => blockFree, 4⟩, 4096⟩, []⟩ (.take 0 2) _ :=
    .take (by decide) (by decide) fun _ _ _ => rfl
  have hnext : MarkStep
      ⟨heapMarkBlocksTaken ⟨⟨fun _ => blockFree, 4⟩, 4096⟩ (0 : ℕ) 2, [(0, 2)]⟩ (.take 2 1) _ :=
    .take (by decide) (by simp) fun i hi hi' => by
      obtain rfl : i = 2 := by omega
      rw [HeapTable.IsFree, heapMarkBlocksTaken_entries, if_neg (by decide)]
  have hrun : Trace MarkStep ⟨⟨⟨fun _ => blockFree, 4⟩, 4096⟩, []⟩ _ _ :=
    .cons hfirst (.cons hnext (.cons (.free (s := 0) (n := 2) (by simp)) (.nil _)))
  refine ⟨_, _, hrun, rfl, blockFlags_decode ?_ hrun⟩
  exact fun _ _ => rfl

end Hyperion
