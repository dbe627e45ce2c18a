import Hyperion.Config
import Hyperion.Lib.Word

/-!
# The kernel heap

`heap.c`. A pool of 4096-byte blocks starting at `saddr` is described by a table with
one byte per block : taken or free, whether the block is the first of its allocation,
and whether the allocation goes on in the next block. The table is given as the bytes
at every index of `table->entries`, below 0 and from `total` on included, because the
code reads and writes there too.
-/

namespace Hyperion

/-- `HEAP_BLOCK_TABLE_ENTRY_TAKEN`. -/
abbrev blockTaken : UInt8 := 0x01
/-- `HEAP_BLOCK_TABLE_ENTRY_FREE`. -/
abbrev blockFree : UInt8 := 0x00
/-- `HEAP_BLOCK_HAS_NEXT`. -/
abbrev blockHasNext : UInt8 := 0b10000000
/-- `HEAP_BLOCK_IS_FIRST`. -/
abbrev blockIsFirst : UInt8 := 0b01000000

/-- `struct heap_table`. -/
structure HeapTable where
  /-- The byte at `entries + i`. -/
  entries : Int → UInt8
  total : Nat

/-- `struct heap`. -/
structure Heap where
  table : HeapTable
  /-- Start address of the heap data pool. -/
  saddr : Nat

/-- `entries[i] = b`. -/
def HeapTable.setEntry (t : HeapTable) (i : Int) (b : UInt8) : HeapTable :=
  { t with entries := fun j => if j = i then b else t.entries j }

/-- The table has an entry for each block. -/
def heapValidateTable (ptr end_ : Nat) (table : HeapTable) : Int :=
  let tableSize := asUnsigned ((end_ : Int) - ptr)
  let totalBlocks := tableSize / 4096
  if table.total ≠ totalBlocks then -EINVARG else 0

def heapValidateAlignment (ptr : Nat) : Bool := ptr % 4096 = 0

/-- The error code, or the initialised heap. -/
def heapCreate (ptr end_ : Nat) (table : HeapTable) : Except Int Heap :=
  if !heapValidateAlignment ptr || !heapValidateAlignment end_ then .error (-EINVARG)
  else
    let res := heapValidateTable ptr end_ table
    if res < 0 then .error res
    else
      .ok { table := { table with entries := fun i =>
              if 0 ≤ i ∧ i < table.total then blockFree else table.entries i }
            saddr := ptr }

/-- 32-bit arithmetic : values in the last block of the address space wrap to 0. -/
def heapAlignValueToUpper (val : Nat) : Nat :=
  if val % 4096 = 0 then val
  else (val - val % 4096 + 4096) % 4294967296

/-- The low bits of an entry. -/
def heapGetEntryType (entry : UInt8) : UInt8 := entry &&& 0x0f

/-- The loop of `heap_get_start_block` over the `fuel` entries from `i` on, with block
count `bc` and block start `bs`. -/
def heapGetStartBlockLoop (table : HeapTable) (totalBlocks : Nat) :
    (fuel i bc : Nat) → (bs : Int) → Int
  | 0, _, _, bs => bs
  | fuel + 1, i, bc, bs =>
    -- the source masks the result of the comparison, not the entry
    if heapGetEntryType (if table.entries i ≠ blockFree then 1 else 0) ≠ 0 then
      heapGetStartBlockLoop table totalBlocks fuel (i + 1) 0 (-1)
    else
      let bs := if bs = -1 then (i : Int) else bs
      if bc + 1 = totalBlocks then bs
      else heapGetStartBlockLoop table totalBlocks fuel (i + 1) (bc + 1) bs

/-- `heap_get_start_block`. -/
def heapGetStartBlock (heap : Heap) (totalBlocks : Nat) : Int :=
  let bs := heapGetStartBlockLoop heap.table totalBlocks heap.table.total 0 0 (-1)
  if bs = -1 then -ENOMEM else bs

/-- The address of a block. -/
def heapBlockToAddress (heap : Heap) (block : Int) : Nat :=
  asUnsigned (heap.saddr + block * 4096)

/-- The loop of `heap_mark_blocks_taken`, `fuel` rounds from `i` on. -/
def heapMarkBlocksTakenLoop (endBlock : Int) :
    (fuel : Nat) → (i : Int) → (entry : UInt8) → HeapTable → HeapTable
  | 0, _, _, table => table
  | fuel + 1, i, entry, table =>
    heapMarkBlocksTakenLoop endBlock fuel (i + 1)
      (if i ≠ endBlock - 1 then blockTaken ||| blockHasNext else blockTaken)
      (table.setEntry i entry)

/-- `heap_mark_blocks_taken`. -/
def heapMarkBlocksTaken (heap : Heap) (startBlock : Int) (totalBlocks : Nat) : Heap :=
  let endBlock := startBlock + totalBlocks - 1
  let entry := blockTaken ||| blockIsFirst
  let entry := if 1 < totalBlocks then entry ||| blockHasNext else entry
  { heap with table := heapMarkBlocksTakenLoop endBlock totalBlocks startBlock entry heap.table }

/-- The address (0 on failure) and the heap afterwards. -/
def heapMallocBlocks (heap : Heap) (totalBlocks : Nat) : Nat × Heap :=
  let startBlock := heapGetStartBlock heap totalBlocks
  if startBlock < 0 then (0, heap)
  else (heapBlockToAddress heap startBlock, heapMarkBlocksTaken heap startBlock totalBlocks)

/-- The loop of `heap_mark_blocks_free`, `fuel` rounds from `i` on. -/
def heapMarkBlocksFreeLoop : (fuel : Nat) → (i : Int) → HeapTable → HeapTable
  | 0, _, table => table
  | fuel + 1, i, table =>
    let entry := table.entries i
    if entry &&& blockHasNext = 0 then table.setEntry i blockFree
    else heapMarkBlocksFreeLoop fuel (i + 1) (table.setEntry i blockFree)

/-- `heap_mark_blocks_free`. -/
def heapMarkBlocksFree (heap : Heap) (startingBlock : Int) : Heap :=
  { heap with table :=
      heapMarkBlocksFreeLoop (heap.table.total - startingBlock).toNat startingBlock heap.table }

/-- The difference of the addresses is read as an `int` before the division. -/
def heapAddressToBlock (heap : Heap) (address : Nat) : Int :=
  (asSigned (asUnsigned ((address : Int) - heap.saddr))).tdiv 4096

/-- `heap_malloc`. -/
def heapMalloc (heap : Heap) (size : Nat) : Nat × Heap :=
  let alignedSize := heapAlignValueToUpper size
  heapMallocBlocks heap (alignedSize / 4096)

/-- `heap_free`. -/
def heapFree (heap : Heap) (ptr : Nat) : Heap :=
  heapMarkBlocksFree heap (heapAddressToBlock heap ptr)

end Hyperion
