import Hyperion.Kernel
import Hyperion.HeapSafety
import Mathlib.Order.Interval.Finset.Nat

/-!
# Allocation in the kernel

`kzalloc` and `kfree` on the kernel state. `Owns k p n` says that the pointer `p` is the
start of an allocation of `n` blocks, `Fresh k p` that it is the address of a free one.
`Extends k k'` holds when everything that was allocated in `k` is in `k'` as it was : it
is kept by allocating, and by writing to and freeing what was allocated since.
-/

namespace Hyperion

open Partial FreeRun

/-- The address of the block `b` of the kernel heap. -/
def blockAddr (b : ℕ) : ℕ := heapAddress + 4096 * b

/-- No block is at the null pointer. -/
theorem blockAddr_pos (b : ℕ) : blockAddr b ≠ 0 := by
  unfold blockAddr heapAddress
  omega

theorem blockAddr_inj {b c : ℕ} : blockAddr b = blockAddr c ↔ b = c := by
  unfold blockAddr
  omega

theorem blockAddr_mod (b : ℕ) : blockAddr b % 4096 = 0 := by
  unfold blockAddr heapAddress
  omega

/-- The heap ends below `2 ^ 32`. -/
theorem blockAddr_lt {b : ℕ} (hb : b < heapTotalBlocks) : blockAddr b + 4096 ≤ 0x7400000 := by
  unfold blockAddr heapAddress
  unfold heapTotalBlocks at hb
  omega

/-- The number of blocks that a request of `size` bytes is served with. -/
def requestBlocks (size : ℕ) : ℕ := heapAlignValueToUpper size / 4096

/-- A page at most takes one block. -/
theorem requestBlocks_one {size : ℕ} (hpos : 1 ≤ size) (hle : size ≤ 4096) :
    requestBlocks size = 1 := by
  unfold requestBlocks heapAlignValueToUpper
  split_ifs <;> omega

/-- The blocks of a request hold it. -/
theorem le_requestBlocks {size : ℕ} (h : size ≤ 4294963200) : size ≤ requestBlocks size * 4096 := by
  unfold requestBlocks heapAlignValueToUpper
  split_ifs <;> omega

theorem requestBlocks_pos {size : ℕ} (hpos : 1 ≤ size) (hle : size ≤ 4294963200) :
    0 < requestBlocks size := by
  have := le_requestBlocks hle
  omega

namespace Kernel

variable {k k' k₀ : Kernel} {p q a b n m size c : ℕ}

/-- The block table of the kernel heap. -/
def table (k : Kernel) : HeapTable := k.heap.table

@[simp] theorem table_total (k : Kernel) : k.table.total = heapTotalBlocks := rfl

/-- `p` is the start of an allocation of `n` blocks. -/
def Owns (k : Kernel) (p n : ℕ) : Prop := ∃ b, p = blockAddr b ∧ Held k.table b n

/-- `p` is the address of a free block. -/
def Fresh (k : Kernel) (p : ℕ) : Prop :=
  ∃ b < heapTotalBlocks, p = blockAddr b ∧ k.table.IsFree b

/-- The null pointer owns nothing. -/
theorem Owns.ne_zero (h : k.Owns p n) : p ≠ 0 := by
  obtain ⟨b, rfl, -⟩ := h
  exact blockAddr_pos b

/-- Ownership is in the table. -/
theorem Owns.of_table (h : k.Owns p n) (ht : k'.table = k.table) : k'.Owns p n := by
  obtain ⟨b, hb, hheld⟩ := h
  exact ⟨b, hb, ht ▸ hheld⟩

/-- The null pointer is not a free block. -/
theorem Fresh.ne_zero (h : k.Fresh p) : p ≠ 0 := by
  obtain ⟨b, -, rfl, -⟩ := h
  exact blockAddr_pos b

/-- What is allocated is not free. -/
theorem Owns.not_fresh (h : k.Owns p n) : ¬k.Fresh p := by
  obtain ⟨b, rfl, hb⟩ := h
  rintro ⟨c, hc, he, hf⟩
  obtain rfl := blockAddr_inj.mp he
  exact hb.not_isFree_start hf

/-! ## The states after `kzalloc`, `kfree` and a store -/

/-- The state after `kzalloc` has answered a request of `size` bytes with block `b`. -/
def allocated (k : Kernel) (b size : ℕ) : Kernel := { k with
  heapTable := (heapMarkBlocksTaken k.heap b (requestBlocks size)).table.entries
  shortRun := k.shortRun || decide (heapTotalBlocks < b + requestBlocks size)
  store := fun a => if a = blockAddr b ∧ 0 < size then none else k.store a
  mem := fun a => if blockAddr b ≤ a ∧ a < blockAddr b + size then 0 else k.mem a }

/-- The structure that was in the blocks is gone. -/
theorem allocated_store : (k.allocated b size).store a =
    if a = blockAddr b ∧ 0 < size then none else k.store a := rfl

/-- The blocks are marked as taken. -/
theorem allocated_table (k : Kernel) (b size : ℕ) : (k.allocated b size).table =
    (heapMarkBlocksTaken k.heap b (requestBlocks size)).table := by
  exact HeapTable.eq_of_entries (heapMarkBlocksTaken_total k.heap b (requestBlocks size)).symm rfl

/-- What has been allocated is owned. -/
theorem allocated_owns (hb : b < heapTotalBlocks) (hn : 0 < requestBlocks size) :
    (k.allocated b size).Owns (blockAddr b) (requestBlocks size) :=
  ⟨b, rfl, by rw [allocated_table]; exact heapMarkBlocksTaken_held _ hb hn⟩

/-- A block that is free afterwards was free and is not one of those taken. -/
theorem allocated_isFree {i : ℕ} : (k.allocated b size).table.IsFree i ↔
    k.table.IsFree i ∧ ¬(b ≤ i ∧ i < b + requestBlocks size) := by
  unfold HeapTable.IsFree
  rw [allocated_table, heapMarkBlocksTaken_entries]
  by_cases h : b ≤ i ∧ i < b + requestBlocks size
  · rw [if_pos (by omega)]
    exact iff_of_false (blockByte_ne_free _ _) fun h' => h'.2 h
  · rw [if_neg (by omega)]
    simp [h, table]

/-- The structure at a freed pointer is gone. -/
theorem release_store (k : Kernel) (p a : ℕ) :
    (k.release p).store a = if a = p then none else k.store a := rfl

/-- Blocks are found at their addresses. -/
theorem heapBlockToAddress_eq (k : Kernel) (hb : b < heapTotalBlocks) :
    heapBlockToAddress k.heap b = blockAddr b := by
  have : k.heap.saddr = heapAddress := rfl
  unfold heapTotalBlocks at hb
  unfold blockAddr heapBlockToAddress asUnsigned
  rw [this]
  unfold heapAddress
  omega

/-- And addresses lead back to their blocks. -/
theorem heapAddressToBlock_blockAddr (k : Kernel) (hb : b < heapTotalBlocks) :
    heapAddressToBlock k.heap (blockAddr b) = b := by
  unfold heapTotalBlocks at hb
  rw [← heapBlockToAddress_eq k hb, heapAddressToBlock_heapBlockToAddress _ (by omega)]

/-- The null pointer leads to an entry far before the table. -/
theorem heapAddressToBlock_null (k : Kernel) : heapAddressToBlock k.heap 0 = -4096 := by
  have : k.heap.saddr = heapAddress := rfl
  rw [heapAddressToBlock, this]
  decide

/-- The blocks are marked as free. -/
theorem release_table (k : Kernel) (p : ℕ) : (k.release p).table =
    (heapMarkBlocksFree k.heap (heapAddressToBlock k.heap p)).table := by
  exact HeapTable.eq_of_entries
    (heapMarkBlocksFree_total k.heap (heapAddressToBlock k.heap p)).symm rfl

/-- A stored structure is found where it was stored. -/
theorem put_store (k : Kernel) (p a : ℕ) (o : Obj) :
    (k.put p o).store a = if a = p then some o else k.store a := rfl

@[simp] theorem put_table (k : Kernel) (p : ℕ) (o : Obj) : (k.put p o).table = k.table := rfl

@[simp] theorem put_store_self (k : Kernel) (p : ℕ) (o : Obj) : (k.put p o).store p = some o :=
  if_pos rfl

@[simp] theorem put_put (k : Kernel) (p : ℕ) (o o' : Obj) : (k.put p o).put p o' = k.put p o' := by
  unfold put
  congr 1
  funext a
  simp only
  split_ifs <;> rfl

/-- Freeing one allocation leaves the others allocated. -/
theorem Owns.release_other (h : k.Owns p n) (h' : k.Owns q m) (hne : p ≠ q) :
    (k.release q).Owns p n := by
  obtain ⟨b, rfl, hb⟩ := h
  obtain ⟨c, rfl, hc⟩ := h'
  refine ⟨b, rfl, ?_⟩
  rw [release_table, heapAddressToBlock_blockAddr k hc.lt]
  exact hc.free_other hb fun he => hne (by rw [he])

/-- `p` is the address of a free block or of an allocation of one block. -/
def Single (k : Kernel) (p : ℕ) : Prop :=
  ∃ b < heapTotalBlocks, p = blockAddr b ∧ (k.table.IsFree b ∨ k.table.entries b = blockByte 1 0)

/-- An allocation of one block is a single block. -/
theorem Owns.single (h : k.Owns p 1) : k.Single p := by
  obtain ⟨b, rfl, hb⟩ := h
  exact ⟨b, hb.lt, rfl, .inr (hb.byte 0 hb.pos hb.lt)⟩

/-- Freeing a single block clears its byte and no other. -/
theorem release_table_single (hb : b < heapTotalBlocks)
    (hs : k.table.IsFree b ∨ k.table.entries b = blockByte 1 0) (j : Int) :
    (k.release (blockAddr b)).table.entries j = if j = b then blockFree else k.table.entries j := by
  have hchain := heapMarkBlocksFreeLoop_chain (heapTotalBlocks - (b : Int)).toNat b k.table 1
    (by omega) fun i hi _ => by
      obtain rfl : i = 0 := by omega
      rw [Nat.cast_zero, add_zero]
      rcases hs with hs | hs
      · rw [hs]
        decide
      · rw [hs]
        decide
  rw [release_table, heapAddressToBlock_blockAddr k hb]
  refine (hchain j).trans ?_
  by_cases hj : j = b
  · rw [if_pos hj, if_pos (by omega)]
  · rw [if_neg hj, if_neg (by omega)]

/-- Freeing a single block leaves the other allocations. -/
theorem Owns.release_single (h : k.Owns p n) (h' : k.Single q) (hne : p ≠ q) :
    (k.release q).Owns p n := by
  obtain ⟨b, rfl, hb⟩ := h
  obtain ⟨c, hc, rfl, hs⟩ := h'
  have hbc : b ≠ c := fun he => hne (by rw [he])
  refine ⟨b, rfl, hb.congr rfl fun i hi hi' hin => ?_⟩
  rw [release_table_single hc hs, if_neg]
  rintro he
  obtain rfl : i = c := by omega
  -- the blocks after the first are taken and not marked as first
  have hbyte := hb.byte (i - b) (by omega) (by omega)
  rw [Nat.add_sub_cancel' hi] at hbyte
  rcases hs with hs | hs
  · exact blockByte_ne_free _ _ (hbyte.symm.trans hs)
  · have h1 := (blockByte_isFirst n (i - b)).mpr (by omega)
    rw [← hbyte, hs] at h1
    exact absurd h1 (by decide)

/-- And the other single blocks. -/
theorem Single.release (h : k.Single p) (h' : k.Single q) : (k.release q).Single p := by
  obtain ⟨b, hb, rfl, hs⟩ := h
  obtain ⟨c, hc, rfl, hs'⟩ := h'
  refine ⟨b, hb, rfl, ?_⟩
  unfold HeapTable.IsFree
  rw [release_table_single hc hs']
  split_ifs
  · exact .inl rfl
  · exact hs

/-! ## The global variables -/

/-- The state without the heap, the store and the memory. -/
def globals (k : Kernel) : Kernel := { k with
  heapTable := fun _ => 0
  shortRun := false
  store := fun _ => none
  mem := fun _ => 0 }

/-- The head of the list is among the globals. -/
theorem taskHead_of_globals (h : k'.globals = k.globals) : k'.taskHead = k.taskHead :=
  show k'.globals.taskHead = k.globals.taskHead by rw [h]

/-- So is its tail. -/
theorem taskTail_of_globals (h : k'.globals = k.globals) : k'.taskTail = k.taskTail :=
  show k'.globals.taskTail = k.globals.taskTail by rw [h]

/-- And the current task. -/
theorem currentTask_of_globals (h : k'.globals = k.globals) : k'.currentTask = k.currentTask :=
  show k'.globals.currentTask = k.globals.currentTask by rw [h]

@[simp] theorem put_globals (k : Kernel) (p : ℕ) (o : Obj) : (k.put p o).globals = k.globals := rfl

@[simp] theorem release_globals (k : Kernel) (p : ℕ) : (k.release p).globals = k.globals := rfl

@[simp] theorem allocated_globals (k : Kernel) (b size : ℕ) :
    (k.allocated b size).globals = k.globals := rfl

/-! ## Extension -/

/-- Everything allocated in `k₀` is in `k` as it was. -/
structure Extends (k₀ k : Kernel) : Prop where
  keeps : Keeps k₀.table k.table
  store : ∀ a, a ≠ 0 → ¬k₀.Fresh a → k.store a = k₀.store a

namespace Extends

variable {k₁ k₂ : Kernel}

theorem refl (k : Kernel) : Extends k k := ⟨.refl _, fun _ _ _ => rfl⟩

/-- What is free in the later state was free. -/
theorem fresh (h : Extends k₀ k) (hf : k.Fresh p) : k₀.Fresh p := by
  obtain ⟨b, hb, rfl, hfree⟩ := hf
  refine ⟨b, hb, rfl, ?_⟩
  by_contra hno
  exact h.keeps.not_isFree hb hno hfree

/-- Growth composes. -/
theorem trans (h : Extends k₀ k₁) (h' : Extends k₁ k₂) : Extends k₀ k₂ where
  keeps := h.keeps.trans h'.keeps
  store a ha hf := (h'.store a ha fun hf' => hf (h.fresh hf')).trans (h.store a ha hf)

/-- What was allocated stays allocated. -/
theorem owns (h : Extends k₀ k) (ho : k₀.Owns p n) : k.Owns p n := by
  obtain ⟨b, rfl, hb⟩ := ho
  exact ⟨b, rfl, h.keeps.held hb⟩

/-- And its structure stays as it was. -/
theorem store_of_owns (h : Extends k₀ k) (ho : k₀.Owns p n) : k.store p = k₀.store p :=
  h.store p ho.ne_zero ho.not_fresh

/-- The heap and the store decide. -/
theorem of_eq (h : Extends k₀ k) (ht : k'.heapTable = k.heapTable) (hs : k'.store = k.store) :
    Extends k₀ k' := by
  constructor
  · have : k'.table = k.table := by simp [table, heap, ht]
    rw [this]
    exact h.keeps
  · rw [hs]
    exact h.store

/-- A structure in a block that was free. -/
theorem put (h : Extends k₀ k) (hf : k₀.Fresh p) (o : Obj) : Extends k₀ (k.put p o) where
  keeps := h.keeps
  store a ha hna := by
    rw [put_store, if_neg, h.store a ha hna]
    rintro rfl
    exact hna hf

/-- A block that was free is given back. -/
theorem release (h : Extends k₀ k) (hf : k₀.Fresh p) : Extends k₀ (k.release p) where
  keeps := by
    obtain ⟨b, hb, rfl, hfree⟩ := hf
    rw [release_table, heapAddressToBlock_blockAddr k hb]
    exact h.keeps.free fun _ => hfree
  store a ha hna := by
    rw [release_store, if_neg, h.store a ha hna]
    rintro rfl
    exact hna hf

/-- So is the null pointer, if the table is guarded. -/
theorem release_null (h : Extends k₀ k) (hg : Guarded k₀.table) : Extends k₀ (k.release 0) where
  keeps := by
    rw [release_table, heapAddressToBlock_null]
    exact h.keeps.free_null hg
  store a ha hna := by rw [release_store, if_neg ha, h.store a ha hna]

/-- A run of free blocks is allocated. -/
theorem allocated (h : Extends k₀ k) (hb : b < heapTotalBlocks)
    (hrun : ∀ i, b ≤ i → i < b + requestBlocks size → i < heapTotalBlocks → k.table.IsFree i)
    (hfree : k.table.IsFree b) : Extends k₀ (k.allocated b size) where
  keeps := by
    rw [allocated_table]
    exact h.keeps.trans (Keeps.mark k.heap hrun)
  store a ha hna := by
    rw [allocated_store, if_neg, h.store a ha hna]
    rintro ⟨rfl, -⟩
    exact hna (h.fresh ⟨b, hb, rfl, hfree⟩)

end Extends

/-! ## The number of free blocks -/

/-- The number of free blocks. -/
def freeBlocks (k : Kernel) : ℕ :=
  ((Finset.range heapTotalBlocks).filter fun b : ℕ => k.heapTable b = blockFree).card

/-- There are not more free blocks than blocks. -/
theorem freeBlocks_le (k : Kernel) : k.freeBlocks ≤ heapTotalBlocks :=
  (Finset.card_filter_le _ _).trans (Finset.card_range _).le

/-- The heap decides. -/
theorem freeBlocks_congr (h : k'.heapTable = k.heapTable) : k'.freeBlocks = k.freeBlocks := by
  unfold freeBlocks
  rw [h]

/-- A count that is not 0 counts something. -/
theorem exists_free (h : 0 < k.freeBlocks) : ∃ b < heapTotalBlocks, k.table.IsFree b := by
  obtain ⟨b, hb⟩ := Finset.card_pos.mp h
  obtain ⟨hlt, hf⟩ := Finset.mem_filter.mp hb
  exact ⟨b, Finset.mem_range.mp hlt, hf⟩

/-- The blocks of a window of free blocks count. -/
theorem le_freeBlocks {lo : ℕ} (h : ∀ b, lo ≤ b → b < lo + n → k.table.IsFree b)
    (hle : lo + n ≤ heapTotalBlocks) : n ≤ k.freeBlocks := by
  have hsub : Finset.Ico lo (lo + n) ⊆
      (Finset.range heapTotalBlocks).filter fun b : ℕ => k.heapTable b = blockFree := by
    intro b hb
    obtain ⟨hlo, hhi⟩ := Finset.mem_Ico.mp hb
    exact Finset.mem_filter.mpr ⟨Finset.mem_range.mpr (by omega), h b hlo hhi⟩
  have hcard := Finset.card_le_card hsub
  rwa [Nat.card_Ico, Nat.add_sub_cancel_left] at hcard

/-- At most `c` blocks are taken. -/
structure Roomy (k : Kernel) (c : ℕ) : Prop where
  le : heapTotalBlocks ≤ k.freeBlocks + c

/-- The heap behind `c` is all free. -/
theorem Roomy.of_free (h : ∀ b, c ≤ b → b < heapTotalBlocks → k.table.IsFree b)
    (hc : c ≤ heapTotalBlocks) : k.Roomy c := by
  have := le_freeBlocks (n := heapTotalBlocks - c) (fun b hb hb' => h b hb (by omega)) (by omega)
  exact ⟨by omega⟩

/-- The heap decides. -/
theorem Roomy.of_heapTable (h : k.Roomy c) (ht : k'.heapTable = k.heapTable) : k'.Roomy c := by
  have := h.le
  exact ⟨by rwa [freeBlocks_congr ht]⟩

/-- Where there is room there is a free block. -/
theorem Roomy.exists_free (h : k.Roomy c) (hc : c < heapTotalBlocks) :
    ∃ b < heapTotalBlocks, k.table.IsFree b := by
  have := h.le
  exact Kernel.exists_free (by omega)

/-- An allocation takes no more blocks than were asked for. -/
theorem freeBlocks_allocated (k : Kernel) (b size : ℕ) :
    k.freeBlocks ≤ (k.allocated b size).freeBlocks + requestBlocks size := by
  have hsub : ((Finset.range heapTotalBlocks).filter fun i : ℕ => k.heapTable i = blockFree) ⊆
      ((Finset.range heapTotalBlocks).filter fun i : ℕ =>
        (k.allocated b size).heapTable i = blockFree) ∪ Finset.Ico b (b + requestBlocks size) := by
    intro i hi
    obtain ⟨hlt, hf⟩ := Finset.mem_filter.mp hi
    by_cases hin : b ≤ i ∧ i < b + requestBlocks size
    · exact Finset.mem_union_right _ (Finset.mem_Ico.mpr hin)
    · exact Finset.mem_union_left _
        (Finset.mem_filter.mpr ⟨hlt, (allocated_isFree (k := k)).mpr ⟨hf, hin⟩⟩)
  calc k.freeBlocks
      ≤ _ := Finset.card_le_card hsub
    _ ≤ _ := Finset.card_union_le _ _
    _ = (k.allocated b size).freeBlocks + requestBlocks size := by
      rw [Nat.card_Ico, Nat.add_sub_cancel_left]
      rfl

/-- An allocation takes at least one block. -/
theorem freeBlocks_allocated_lt (hb : b < heapTotalBlocks) (hf : k.table.IsFree b)
    (hn : 0 < requestBlocks size) : (k.allocated b size).freeBlocks + 1 ≤ k.freeBlocks := by
  refine Finset.card_lt_card ⟨fun i hi => ?_, fun hsub => ?_⟩
  · obtain ⟨hlt, hfi⟩ := Finset.mem_filter.mp hi
    exact Finset.mem_filter.mpr ⟨hlt, ((allocated_isFree (k := k)).mp hfi).1⟩
  · have hin := hsub (Finset.mem_filter.mpr ⟨Finset.mem_range.mpr hb, hf⟩)
    have hfi := (Finset.mem_filter.mp hin).2
    exact ((allocated_isFree (k := k)).mp hfi).2 ⟨le_rfl, by omega⟩

/-- Freeing never makes fewer blocks free. -/
theorem freeBlocks_release (k : Kernel) (p : ℕ) : k.freeBlocks ≤ (k.release p).freeBlocks := by
  refine Finset.card_le_card fun i hi => ?_
  obtain ⟨hlt, hf⟩ := Finset.mem_filter.mp hi
  refine Finset.mem_filter.mpr ⟨hlt, ?_⟩
  rcases heapMarkBlocksFreeLoop_eq_or _ _ k.table i with h | h
  · exact h.trans hf
  · exact h

/-! ## `kzalloc` -/

/-- What `kzalloc` computes when the search answers block `b`. -/
theorem kzalloc_of_start (hb : b < heapTotalBlocks)
    (hs : heapGetStartBlock k.heap (requestBlocks size) = b) :
    kzalloc size k = if 4294967296 < blockAddr b + size then none
      else some (blockAddr b, k.allocated b size) := by
  have hm : heapMalloc k.heap size =
      (blockAddr b, heapMarkBlocksTaken k.heap b (requestBlocks size)) := by
    rw [show heapMalloc k.heap size = heapMallocBlocks k.heap (requestBlocks size) from rfl,
      heapMallocBlocks]
    simp only [hs, heapBlockToAddress_eq k hb]
    rw [if_neg (by omega)]
  have hshort : k.answersShort (requestBlocks size) =
      decide (heapTotalBlocks < b + requestBlocks size) := by
    unfold answersShort
    rw [hs]
    simp only [Int.natCast_nonneg, decide_true, Bool.true_and, decide_eq_decide]
    omega
  simp only [kzalloc, run_bind, kmalloc, hm, Option.bind_some, if_neg (blockAddr_pos b)]
  rw [show heapAlignValueToUpper size / 4096 = requestBlocks size from rfl, hshort]
  split_ifs
  · rfl
  · rfl

/-- Without a run of free blocks the answer is null. -/
theorem kzalloc_of_full (hs : heapGetStartBlock k.heap (requestBlocks size) = -ENOMEM) :
    kzalloc size k = some (0, k) := by
  have hm : heapMalloc k.heap size = (0, k.heap) := by
    rw [show heapMalloc k.heap size = heapMallocBlocks k.heap (requestBlocks size) from rfl,
      heapMallocBlocks]
    simp only [hs]
    rw [if_pos (by decide)]
  have hshort : k.answersShort (heapAlignValueToUpper size / 4096) = false := by
    unfold answersShort
    rw [show heapAlignValueToUpper size / 4096 = requestBlocks size from rfl, hs]
    simp [ENOMEM]
  simp only [kzalloc, run_bind, kmalloc, hm, hshort, Option.bind_some, if_true, Bool.or_false,
    run_pure]
  rfl

/-- The three answers of `kzalloc` : a run that serves the request, the start of a run
that is too short (or of a run, when no block was asked for), and null. -/
theorem kzalloc_cases (k : Kernel) (size : ℕ) :
    (∃ b, b < heapTotalBlocks ∧ 0 < requestBlocks size ∧
      FirstRun k.table.IsFree heapTotalBlocks (requestBlocks size) b ∧
      kzalloc size k = if 4294967296 < blockAddr b + size then none
        else some (blockAddr b, k.allocated b size)) ∨
    (∃ b, b < heapTotalBlocks ∧
      (0 < requestBlocks size → ¬HasRun k.table.IsFree heapTotalBlocks (requestBlocks size)) ∧
      LastRun k.table.IsFree heapTotalBlocks b ∧
      kzalloc size k = if 4294967296 < blockAddr b + size then none
        else some (blockAddr b, k.allocated b size)) ∨
    (kzalloc size k = some (0, k) ∧
      (0 < requestBlocks size → ¬HasRun k.table.IsFree heapTotalBlocks (requestBlocks size)) ∧
      ¬k.table.IsFree (heapTotalBlocks - 1)) := by
  rcases heapGetStartBlock_cases k.heap (requestBlocks size) with ⟨b, hs, hpos, hrun⟩ |
    ⟨b, hs, hno, hlast⟩ | ⟨hs, hno, hlast⟩
  · have hb : b < heapTotalBlocks := by
      have := hrun.inside
      simp only [heap] at this
      omega
    exact .inl ⟨b, hb, hpos, hrun, kzalloc_of_start hb hs⟩
  · exact .inr (.inl ⟨b, hlast.lt, hno, hlast, kzalloc_of_start hlast.lt hs⟩)
  · refine .inr (.inr ⟨kzalloc_of_full hs, hno, hlast.resolve_left ?_⟩)
    simp [heap, heapTotalBlocks]

/-- `kzalloc` answers a request of `size` bytes with the free blocks from `b` on. -/
structure Answers (k : Kernel) (size b : ℕ) : Prop where
  lt : b < heapTotalBlocks
  free : k.table.IsFree b
  run : ∀ i, b ≤ i → i < b + requestBlocks size → i < heapTotalBlocks → k.table.IsFree i
  fits : blockAddr b + size ≤ 4294967296

/-- Every answer of `kzalloc`. -/
theorem kzalloc_rule {Q : ℕ → Kernel → Prop} (hnull : Q 0 k)
    (hQ : ∀ b, k.Answers size b → Q (blockAddr b) (k.allocated b size)) :
    Meets False (kzalloc size) k Q := by
  have hserved {b : ℕ} (hb : b < heapTotalBlocks)
      (hrun : ∀ i, b ≤ i → i < b + requestBlocks size → i < heapTotalBlocks → k.table.IsFree i)
      (hfree : k.table.IsFree b) (he : kzalloc size k =
        if 4294967296 < blockAddr b + size then none else some (blockAddr b, k.allocated b size)) :
      Meets False (kzalloc size) k Q := by
    by_cases hbig : 4294967296 < blockAddr b + size
    · exact .of_run_none (by rw [he, if_pos hbig]) id
    · rw [if_neg hbig] at he
      exact .of_run_eq he (hQ b ⟨hb, hfree, hrun, by omega⟩)
  rcases kzalloc_cases k size with ⟨b, hb, hpos, hrun, he⟩ | ⟨b, hb, -, hlast, he⟩ | ⟨he, -, -⟩
  · exact hserved hb (fun i hi hi' _ => hrun.run i hi hi') (hrun.run b le_rfl (by omega)) he
  · exact hserved hb (fun i hi _ hin => hlast.run i hi (by omega))
      (hlast.run b le_rfl (by omega)) he
  · exact .of_run_eq he hnull

namespace Answers

/-- The answer was free before. -/
theorem fresh (h : k.Answers size b) : k.Fresh (blockAddr b) := ⟨b, h.lt, rfl, h.free⟩

/-- To allocate it only adds to the heap. -/
theorem ext (h : k.Answers size b) : k.Extends (k.allocated b size) :=
  (Extends.refl k).allocated h.lt h.run h.free

theorem requestBlocks_pos (h : k.Answers size b) (hpos : 1 ≤ size) : 0 < requestBlocks size := by
  have := h.fits
  unfold blockAddr heapAddress at this
  exact Hyperion.requestBlocks_pos hpos (by omega)

/-- The allocation is owned by its first block. -/
theorem owns (h : k.Answers size b) (hpos : 1 ≤ size) :
    (k.allocated b size).Owns (blockAddr b) (requestBlocks size) :=
  allocated_owns h.lt (h.requestBlocks_pos hpos)

end Answers

/-- A request for a part of a block gets the first free block, if there is one. -/
theorem kzalloc_one (k : Kernel) (hpos : 1 ≤ size) (hle : size ≤ 4096) :
    (∃ b < heapTotalBlocks, k.table.IsFree b ∧ (∀ c < b, ¬k.table.IsFree c) ∧
      kzalloc size k = some (blockAddr b, k.allocated b size)) ∨
    (kzalloc size k = some (0, k) ∧ ∀ b < heapTotalBlocks, ¬k.table.IsFree b) := by
  have hone := requestBlocks_one hpos hle
  have hrun1 : ∀ c, IsRun k.table.IsFree c 1 ↔ k.table.IsFree c := by
    intro c
    refine ⟨fun h => h c le_rfl (by omega), fun h i hi hi' => ?_⟩
    obtain rfl : i = c := by omega
    exact h
  rcases kzalloc_cases k size with ⟨b, hb, -, hrun, he⟩ | ⟨b, hb, hno, hlast, -⟩ | ⟨he, hno, -⟩
  · rw [hone] at hrun
    refine .inl ⟨b, hb, (hrun1 b).mp hrun.run, fun c hc hf =>
      hrun.first c hc ((hrun1 c).mpr hf), ?_⟩
    have := blockAddr_lt hb
    rw [he, if_neg (by omega)]
  · rw [hone] at hno
    refine absurd ⟨b, by omega, (hrun1 b).mpr ?_⟩ (hno (by omega))
    exact hlast.run b le_rfl (by omega)
  · rw [hone] at hno
    exact .inr ⟨he, fun b hb hf => hno (by omega) ⟨b, by omega, (hrun1 b).mpr hf⟩⟩

/-- The rule for a request for a part of a block. In a state with room it does not fail. -/
theorem kzalloc_one_meets {r : Prop} {Q : ℕ → Kernel → Prop} (hpos : 1 ≤ size)
    (hle : size ≤ 4096) (hr : r → k.Roomy c ∧ c < heapTotalBlocks) (hnull : ¬r → Q 0 k)
    (hQ : ∀ b < heapTotalBlocks, k.table.IsFree b → (r → (k.allocated b size).Roomy (c + 1)) →
      Q (blockAddr b) (k.allocated b size)) :
    Meets r (kzalloc size) k Q := by
  rcases kzalloc_one k hpos hle with ⟨b, hb, hf, -, he⟩ | ⟨he, hfull⟩
  · refine .of_run_eq he (hQ b hb hf fun h => ?_)
    have hroom := (hr h).1.le
    have hcount := k.freeBlocks_allocated b size
    rw [requestBlocks_one hpos hle] at hcount
    exact ⟨by omega⟩
  · refine .of_run_eq he (hnull fun h => ?_)
    obtain ⟨b, hb, hf⟩ := (hr h).1.exists_free (hr h).2
    exact hfull b hb hf

/-- A single block is allocated. -/
theorem Extends.allocated_one (h : Extends k₀ k) (hpos : 1 ≤ size) (hle : size ≤ 4096)
    (hb : b < heapTotalBlocks) (hf : k.table.IsFree b) : Extends k₀ (k.allocated b size) := by
  refine h.allocated hb (fun i hi hi' _ => ?_) hf
  rw [requestBlocks_one hpos hle] at hi'
  obtain rfl : i = b := by omega
  exact hf

/-- And owned. -/
theorem allocated_owns_one (hpos : 1 ≤ size) (hle : size ≤ 4096) (hb : b < heapTotalBlocks) :
    (k.allocated b size).Owns (blockAddr b) 1 := by
  have hpos' : 0 < requestBlocks size := by rw [requestBlocks_one hpos hle]; omega
  have := allocated_owns (k := k) hb hpos'
  rwa [requestBlocks_one hpos hle] at this

/-- The size of a request in blocks is rounded up. -/
theorem requestBlocks_eq (h : size ≤ 104857600) : requestBlocks size = (size + 4095) / 4096 := by
  unfold requestBlocks heapAlignValueToUpper
  split_ifs <;> omega

/-- Whatever is answered to a request of at most the size of the heap. -/
theorem kzalloc_any_meets {r : Prop} {Q : ℕ → Kernel → Prop} (hsize : size ≤ 104857600)
    (hQ : ∀ p k', k'.globals = k.globals → k.freeBlocks ≤ k'.freeBlocks + requestBlocks size →
      Q p k') : Meets r (kzalloc size) k Q := by
  have hserved {b : ℕ} (hb : b < heapTotalBlocks) (he : kzalloc size k =
      if 4294967296 < blockAddr b + size then none else some (blockAddr b, k.allocated b size)) :
      Meets r (kzalloc size) k Q := by
    have := blockAddr_lt hb
    rw [if_neg (by omega)] at he
    exact .of_run_eq he (hQ _ _ rfl (freeBlocks_allocated k b size))
  rcases kzalloc_cases k size with ⟨b, hb, -, -, he⟩ | ⟨b, hb, -, -, he⟩ | ⟨he, -, -⟩
  · exact hserved hb he
  · exact hserved hb he
  · exact .of_run_eq he (hQ _ _ rfl (Nat.le_add_right _ _))

/-- A request for a part of a block is served while there is a free one. -/
theorem kzalloc_free_meets {r : Prop} {Q : ℕ → Kernel → Prop} (hpos : 1 ≤ size)
    (hle : size ≤ 4096) (hfree : 0 < k.freeBlocks)
    (hQ : ∀ p k', p ≠ 0 → k'.globals = k.globals → k.freeBlocks ≤ k'.freeBlocks + 1 → Q p k') :
    Meets r (kzalloc size) k Q := by
  rcases kzalloc_one k hpos hle with ⟨b, hb, -, -, he⟩ | ⟨-, hfull⟩
  · have := freeBlocks_allocated k b size
    rw [requestBlocks_one hpos hle] at this
    exact .of_run_eq he (hQ _ _ (blockAddr_pos b) rfl this)
  · obtain ⟨b, hb, hf⟩ := exists_free hfree
    exact absurd hf (hfull b hb)

/-! ## Following pointers -/

variable {r : Prop}

/-- A store through the null pointer has no result. -/
@[simp] theorem putObj_meets {o : Obj} {Q : Unit → Kernel → Prop} :
    Meets r (putObj a o) k Q ↔ if a = 0 then ¬r else Q () (k.put a o) := by
  split_ifs with h
  · exact ⟨fun hm => hm.2 (if_pos h),
      fun hr => ⟨fun _ _ e => by simp [putObj, h] at e, fun _ => hr⟩⟩
  · exact ⟨fun hm => hm.1 () _ (if_neg h), Meets.of_run_eq (if_neg h)⟩

/-- A structure is read where it is. -/
theorem getObj_run {o : Obj} (ha : a ≠ 0) (ho : k.store a = some o) :
    getObj a k = some (o, k) := by
  simp [getObj, ha, ho]

@[simp] theorem getObj_null {Q : Obj → Kernel → Prop} : Meets r (getObj 0) k Q ↔ ¬r :=
  ⟨fun h => h.2 rfl, fun h => ⟨fun _ _ e => by simp [getObj] at e, fun _ => h⟩⟩

/-- A task is read where it is known to be. -/
theorem getTask_meets {t : Task} {Q : Task → Kernel → Prop} (ha : a ≠ 0)
    (ho : k.store a = some (.task t)) : Meets r (getTask a) k Q ↔ Q t k := by
  have : getTask a k = some (t, k) := by simp [getTask, run_bind, getObj_run ha ho, run_pure]
  exact ⟨fun h => h.of_eq this, .of_run_eq this⟩

/-- A process likewise. -/
theorem getProcess_meets {p : Process} {Q : Process → Kernel → Prop} (ha : a ≠ 0)
    (ho : k.store a = some (.process p)) : Meets r (getProcess a) k Q ↔ Q p k := by
  have : getProcess a k = some (p, k) := by simp [getProcess, run_bind, getObj_run ha ho, run_pure]
  exact ⟨fun h => h.of_eq this, .of_run_eq this⟩

/-- A space likewise. -/
theorem getChunk_meets {d : ℕ} {Q : ℕ → Kernel → Prop} (ha : a ≠ 0)
    (ho : k.store a = some (.chunk d)) : Meets r (getChunk a) k Q ↔ Q d k := by
  have : getChunk a k = some (d, k) := by simp [getChunk, run_bind, getObj_run ha ho, run_pure]
  exact ⟨fun h => h.of_eq this, .of_run_eq this⟩

/-- A directory likewise. -/
theorem getDirectory_meets {f : ℕ → ℕ} {Q : (ℕ → ℕ) → Kernel → Prop} (ha : a ≠ 0)
    (ho : k.store a = some (.directory f)) : Meets r (getDirectory a) k Q ↔ Q f k := by
  have : getDirectory a k = some (f, k) := by
    simp [getDirectory, run_bind, getObj_run ha ho, run_pure]
  exact ⟨fun h => h.of_eq this, .of_run_eq this⟩

/-- A page table likewise. -/
theorem getTable_meets {f : ℕ → ℕ} {Q : (ℕ → ℕ) → Kernel → Prop} (ha : a ≠ 0)
    (ho : k.store a = some (.table f)) : Meets r (getTable a) k Q ↔ Q f k := by
  have : getTable a k = some (f, k) := by simp [getTable, run_bind, getObj_run ha ho, run_pure]
  exact ⟨fun h => h.of_eq this, .of_run_eq this⟩

/-- A task is changed where it is known to be. -/
theorem modifyTask_meets {t : Task} {f : Task → Task} {Q : Unit → Kernel → Prop} (ha : a ≠ 0)
    (ho : k.store a = some (.task t)) :
    Meets r (modifyTask a f) k Q ↔ Q () (k.put a (.task (f t))) := by
  rw [modifyTask, Meets.bind_iff, getTask_meets ha ho, putObj_meets, if_neg ha]

/-- A process likewise. -/
theorem modifyProcess_meets {p : Process} {f : Process → Process} {Q : Unit → Kernel → Prop}
    (ha : a ≠ 0) (ho : k.store a = some (.process p)) :
    Meets r (modifyProcess a f) k Q ↔ Q () (k.put a (.process (f p))) := by
  rw [modifyProcess, Meets.bind_iff, getProcess_meets ha ho, putObj_meets, if_neg ha]

/-! The rules for pointers of which nothing is known. -/

/-- A pointer of which nothing is known leads to a structure, or the program stops. -/
theorem getObj_rule {Q : Obj → Kernel → Prop} (hr : r → a ≠ 0 ∧ ∃ o, k.store a = some o)
    (hQ : ∀ o, a ≠ 0 → k.store a = some o → Q o k) : Meets r (getObj a) k Q := by
  by_cases h : a ≠ 0 ∧ ∃ o, k.store a = some o
  · obtain ⟨ha, o, ho⟩ := h
    exact .of_run_eq (getObj_run ha ho) (hQ o ha ho)
  · refine .of_run_none ?_ fun h' => h (hr h')
    by_cases ha : a = 0
    · simp [getObj, ha]
    · have ho : k.store a = none := Option.eq_none_iff_forall_ne_some.mpr fun o ho => h ⟨ha, o, ho⟩
      simp [getObj, ha, ho]

/-- To a task. -/
theorem getTask_rule {Q : Task → Kernel → Prop}
    (hQ : ∀ t, a ≠ 0 → k.store a = some (.task t) → Q t k) : Meets False (getTask a) k Q :=
  .bind (getObj_rule (Q := fun o k' => k' = k ∧ a ≠ 0 ∧ k.store a = some o) (·.elim)
    fun _ h h' => ⟨rfl, h, h'⟩) fun o k' ⟨hk, ha, ho⟩ => by
    subst hk
    cases o <;> simp
    exact hQ _ ha ho

/-- To a process. -/
theorem getProcess_rule {Q : Process → Kernel → Prop}
    (hr : r → a ≠ 0 ∧ ∃ p, k.store a = some (.process p))
    (hQ : ∀ p, a ≠ 0 → k.store a = some (.process p) → Q p k) : Meets r (getProcess a) k Q := by
  refine .bind (getObj_rule (Q := fun o k' => k' = k ∧ a ≠ 0 ∧ k.store a = some o) (fun h => ?_)
    fun _ h h' => ⟨rfl, h, h'⟩) fun o k' ⟨hk, ha, ho⟩ => ?_
  · obtain ⟨ha, p, hp⟩ := hr h
    exact ⟨ha, _, hp⟩
  · subst hk
    cases o with
    | process p => exact Meets.pure_iff.mpr (hQ p ha ho)
    | _ =>
      refine Meets.fault_iff.mpr fun h => ?_
      obtain ⟨-, p, hp⟩ := hr h
      rw [hp] at ho
      cases ho

/-- To a space. -/
theorem getChunk_rule {Q : ℕ → Kernel → Prop}
    (hQ : ∀ d, a ≠ 0 → k.store a = some (.chunk d) → Q d k) : Meets False (getChunk a) k Q :=
  .bind (getObj_rule (Q := fun o k' => k' = k ∧ a ≠ 0 ∧ k.store a = some o) (·.elim)
    fun _ h h' => ⟨rfl, h, h'⟩) fun o k' ⟨hk, ha, ho⟩ => by
    subst hk
    cases o <;> simp
    exact hQ _ ha ho

/-- Two assignments to fields of one task. -/
theorem modifyTask_put_meets {t : Task} {f : Task → Task} {Q : Unit → Kernel → Prop} (ha : a ≠ 0) :
    Meets r (modifyTask a f) (k.put a (.task t)) Q ↔ Q () (k.put a (.task (f t))) := by
  rw [modifyTask_meets ha (put_store_self k a _), put_put]

end Kernel

end Hyperion
