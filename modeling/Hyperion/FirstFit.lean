import Hyperion.HeapTable

/-!
# First fit

If the table has a run of free blocks that is long enough, `heap_get_start_block` returns where the
first such run starts, and `heap_malloc` takes it (`heapGetStartBlock_firstFit`). The count and the
start are of type `int` in the source, and the count is compared with an unsigned number. For a
table of less than `2 ^ 31` entries neither makes a difference (`heapGetStartBlockInt_eq`).

The search restarts its count at every entry that is taken, so that a run is found with its first
block and not in the middle (`heapGetStartBlock_of_hasRun`). The address of the block is not the
null pointer as long as the pool does not begin at 0 (`heapBlockToAddress_of_inside`), and then the
blocks from it on are taken and no others (`heapMallocBlocks_of_start`).
-/

namespace Hyperion

open FreeRun

/-- The loop of `heap_get_start_block` with `bc` and `bs` of type `int`. -/
def heapGetStartBlockIntLoop (table : HeapTable) (totalBlocks : ℕ) :
    (fuel i : ℕ) → (bc bs : Int) → Int
  | 0, _, _, bs => bs
  | fuel + 1, i, bc, bs =>
    if heapGetEntryType (if table.entries i ≠ blockFree then 1 else 0) ≠ 0 then
      heapGetStartBlockIntLoop table totalBlocks fuel (i + 1) 0 (-1)
    else
      let bs := if bs = -1 then asSigned i else bs
      let bc := wrapInt (bc + 1)
      if asUnsigned bc = totalBlocks then bs
      else heapGetStartBlockIntLoop table totalBlocks fuel (i + 1) bc bs

def heapGetStartBlockInt (heap : Heap) (totalBlocks : ℕ) : Int :=
  let bs := heapGetStartBlockIntLoop heap.table totalBlocks heap.table.total 0 0 (-1)
  if bs = -1 then -ENOMEM else bs

variable {table : HeapTable} {heap : Heap} {n s size : ℕ}

/-- The count stays below the number of entries that were passed. -/
theorem heapGetStartBlockIntLoop_eq : ∀ {fuel i bc : ℕ} {bs : Int}, i + fuel < 2147483648 →
    bc ≤ i → heapGetStartBlockIntLoop table n fuel i bc bs =
      heapGetStartBlockLoop table n fuel i bc bs
  | 0, _, _, _, _, _ => rfl
  | fuel + 1, i, bc, bs, hi, hbc => by
    have hcount : wrapInt ((bc : Int) + 1) = (bc + 1 : ℕ) := by
      rw [wrapInt_of_range (by omega) (by omega)]
      rfl
    have hunsigned : asUnsigned ((bc + 1 : ℕ) : Int) = bc + 1 := asUnsigned_natCast (by omega)
    have hnext (bc' : ℕ) (hbc' : bc' ≤ i + 1) (bs' : Int) :
        heapGetStartBlockIntLoop table n fuel (i + 1) bc' bs' =
          heapGetStartBlockLoop table n fuel (i + 1) bc' bs' :=
      heapGetStartBlockIntLoop_eq (by omega) hbc'
    have hreset := hnext 0 (Nat.zero_le _) (-1)
    rw [Nat.cast_zero] at hreset
    simp only [heapGetStartBlockIntLoop, heapGetStartBlockLoop,
      asSigned_of_lt (show i < 2147483648 by omega), hcount, hunsigned, hreset,
      hnext (bc + 1) (by omega)]

theorem heapGetStartBlockInt_eq (h : heap.table.total < 2147483648) :
    heapGetStartBlockInt heap n = heapGetStartBlock heap n := by
  have hloop : heapGetStartBlockIntLoop heap.table n heap.table.total 0 (0 : ℕ) (-1) = _ :=
    heapGetStartBlockIntLoop_eq (by omega) le_rfl
  rw [heapGetStartBlockInt, heapGetStartBlock]
  exact congrArg (fun bs : Int => if bs = -1 then -ENOMEM else bs) hloop

/-- With a run that is long enough the search finds the first one. -/
theorem heapGetStartBlock_of_hasRun (hn : 1 ≤ n)
    (h : HasRun heap.table.IsFree heap.table.total n) :
    ∃ s : ℕ, FirstRun heap.table.IsFree heap.table.total n s ∧ heapGetStartBlock heap n = s := by
  obtain ⟨s, hs, -, hrun⟩ | ⟨s, -, hno, -⟩ | ⟨-, hno, -⟩ := heapGetStartBlock_cases heap n
  · exact ⟨s, hrun, hs⟩
  · exact absurd h (hno hn)
  · exact absurd h (hno hn)

/-- The blocks from `s` on are taken. -/
theorem heapMallocBlocks_of_start (h : heapGetStartBlock heap n = s) :
    heapMallocBlocks heap n = (heapBlockToAddress heap s, heapMarkBlocksTaken heap s n) := by
  rw [heapMallocBlocks, h]
  exact if_neg (by omega)

/-- A block of a pool that lies in the address space and does not begin at 0. -/
theorem heapBlockToAddress_of_inside (hs : s < heap.table.total) (hpos : 0 < heap.saddr)
    (hpool : heap.saddr + heap.table.total * 4096 ≤ 4294967296) :
    heapBlockToAddress heap s = heap.saddr + s * 4096 ∧ heapBlockToAddress heap s ≠ 0 := by
  have haddr : heapBlockToAddress heap s = heap.saddr + s * 4096 := by
    have hcast : (heap.saddr : Int) + s * 4096 = (heap.saddr + s * 4096 : ℕ) := by omega
    rw [heapBlockToAddress, hcast]
    exact asUnsigned_natCast (by omega)
  exact ⟨haddr, by omega⟩

/-- First fit. -/
theorem heapGetStartBlock_firstFit (hn : 1 ≤ n)
    (h : HasRun heap.table.IsFree heap.table.total n) :
    ∃ s : ℕ, FirstRun heap.table.IsFree heap.table.total n s ∧ heapGetStartBlock heap n = s ∧
      (heap.table.total < 2147483648 → heapGetStartBlockInt heap n = s) ∧
      (∀ size, heapAlignValueToUpper size / 4096 = n →
        heapMalloc heap size = (heapBlockToAddress heap s, heapMarkBlocksTaken heap s n)) ∧
      (0 < heap.saddr → heap.saddr + heap.table.total * 4096 ≤ 4294967296 →
        heapBlockToAddress heap s = heap.saddr + s * 4096 ∧ heapBlockToAddress heap s ≠ 0) := by
  obtain ⟨s, hrun, hs⟩ := heapGetStartBlock_of_hasRun hn h
  refine ⟨s, hrun, hs, fun htotal => ?_, fun size hsize => ?_, fun hpos hpool => ?_⟩
  · rw [heapGetStartBlockInt_eq htotal, hs]
  · rw [heapMalloc, hsize, heapMallocBlocks_of_start hs]
  · have := hrun.inside
    exact heapBlockToAddress_of_inside (by omega) hpos hpool

/-- Five blocks, of which the first and the third are taken. -/
def fragmentedHeap : Heap where
  table := ⟨fun i => if i = 0 ∨ i = 2 then blockTaken ||| blockIsFirst else blockFree, 5⟩
  saddr := 0x01000000

/-- Two blocks are found behind the single free one. -/
theorem heapGetStartBlock_firstFit_fragmented :
    ∃ s : ℕ, FirstRun fragmentedHeap.table.IsFree fragmentedHeap.table.total 2 s ∧
      heapGetStartBlock fragmentedHeap 2 = s ∧
      (fragmentedHeap.table.total < 2147483648 → heapGetStartBlockInt fragmentedHeap 2 = s) ∧
      (∀ size, heapAlignValueToUpper size / 4096 = 2 → heapMalloc fragmentedHeap size =
        (heapBlockToAddress fragmentedHeap s, heapMarkBlocksTaken fragmentedHeap s 2)) ∧
      (0 < fragmentedHeap.saddr →
        fragmentedHeap.saddr + fragmentedHeap.table.total * 4096 ≤ 4294967296 →
        heapBlockToAddress fragmentedHeap s = fragmentedHeap.saddr + s * 4096 ∧
          heapBlockToAddress fragmentedHeap s ≠ 0) := by
  refine heapGetStartBlock_firstFit (by decide) ⟨3, by decide, fun i hi hi' => ?_⟩
  obtain rfl | rfl : i = 3 ∨ i = 4 := by omega
  · rfl
  · rfl

end Hyperion
