import Hyperion.Kernel

/-!
# Paging

`paging.c`. A page directory has 1024 entries, each the address of a page table with
flags in its low 12 bits. A page table has 1024 entries, each the address of a physical
page with flags.
-/

namespace Hyperion

open Partial

/-- `PAGING_ACCESS_FROM_ALL`. -/
abbrev pagingAccessFromAll : ℕ := 0b00000100
/-- `PAGING_IS_WRITEABLE`. -/
abbrev pagingIsWriteable : ℕ := 0b00000010
/-- `PAGING_IS_PRESENT`. -/
abbrev pagingIsPresent : ℕ := 0b00000001

/-- The address part of an entry. -/
def entryAddress (entry : ℕ) : ℕ := entry &&& 0xfffff000

/-- `directory[i] = v` in the directory at `a`. -/
def setDirectoryEntry (a : ℕ) (i v : ℕ) : KernelM Unit := do
  let f ← getDirectory a
  putObj a (.directory fun j => if j = i then v else f j)

/-- `table[i] = v` in the table at `a`. -/
def setTableEntry (a : ℕ) (i v : ℕ) : KernelM Unit := do
  let f ← getTable a
  putObj a (.table fun j => if j = i then v else f j)

/-- The loop of `paging_new_4gb`, `fuel` rounds from directory entry `i` on. -/
def pagingNew4gbLoop (flags : ℕ) (directory : ℕ) : (fuel i : ℕ) → (offset : ℕ) → KernelM Unit
  | 0, _, _ => return
  | fuel + 1, i, offset => do
    let entry ← kzalloc 4096
    -- the inner loop over `entry[j]`
    putObj entry (.table fun j => ((offset + j * 4096) % 4294967296) ||| flags)
    setDirectoryEntry directory i (entry ||| flags ||| pagingIsWriteable)
    pagingNew4gbLoop flags directory fuel (i + 1) ((offset + 4096 * 1024) % 4294967296)

/-- `paging_new_4gb` : a directory, its 1024 tables, and the `struct paging_4gb_chunk` for it. -/
def pagingNew4gb (flags : ℕ) : KernelM ℕ := do
  let directory ← kzalloc 4096
  if directory ≠ 0 then putObj directory (.directory fun _ => 0)
  pagingNew4gbLoop flags directory 1024 0 0
  let chunk ← kzalloc 4
  putObj chunk (.chunk directory)
  return chunk

/-- Loads the directory into the CPU. -/
def pagingSwitch (directory : ℕ) : KernelM Unit := do
  let d ← getChunk directory
  modify fun k => { k with currentDirectory := d }

/-- The loop of `paging_free_4gb`, `fuel` rounds from directory entry `i` on. -/
def pagingFree4gbLoop (chunk : ℕ) : (fuel i : ℕ) → KernelM Unit
  | 0, _ => return
  | fuel + 1, i => do
    let directory ← getChunk chunk
    let entries ← getDirectory directory
    kfree (entryAddress (entries i))
    pagingFree4gbLoop chunk fuel (i + 1)

/-- `paging_free_4gb`, the other way around. -/
def pagingFree4gb (chunk : ℕ) : KernelM Unit := do
  pagingFree4gbLoop chunk 1024 0
  let directory ← getChunk chunk
  kfree directory
  kfree chunk

def pagingIsAligned (addr : ℕ) : Bool := addr % 4096 = 0

/-- Status, directory index and table index. -/
def pagingGetIndexes (virtualAddress : ℕ) : Int × ℕ × ℕ :=
  if !pagingIsAligned virtualAddress then (-EINVARG, 0, 0)
  else (0, virtualAddress / (1024 * 4096), virtualAddress % (1024 * 4096) / 4096)

/-- Up to a page, which wraps behind the last one. -/
def pagingAlignAddress (ptr : ℕ) : ℕ :=
  if ptr % 4096 ≠ 0 then (ptr + 4096 - ptr % 4096) % 4294967296 else ptr

/-- Down to a page. -/
def pagingAlignToLowerPage (addr : ℕ) : ℕ := addr - addr % 4096

/-- `paging_set` : the entry of a virtual page. -/
def pagingSet (directory : ℕ) (virt : ℕ) (val : ℕ) : KernelM Int := do
  if !pagingIsAligned virt then return -EINVARG
  let (res, directoryIndex, tableIndex) := pagingGetIndexes virt
  if res < 0 then return res
  let entries ← getDirectory directory
  setTableEntry (entryAddress (entries directoryIndex)) tableIndex val
  return 0

/-- `paging_get`, which does not check the address. -/
def pagingGet (directory : ℕ) (virt : ℕ) : KernelM ℕ := do
  let (_, directoryIndex, tableIndex) := pagingGetIndexes virt
  let entries ← getDirectory directory
  let table ← getTable (entryAddress (entries directoryIndex))
  return table tableIndex

/-- The address that a virtual one is mapped to. -/
def pagingGetPhysicalAddress (directory : ℕ) (virt : ℕ) : KernelM ℕ := do
  let virtAddrNew := pagingAlignToLowerPage virt
  let difference := virt - virtAddrNew
  let entry ← pagingGet directory virtAddrNew
  return (entryAddress entry + difference) % 4294967296

/-- `paging_map`, of one page. -/
def pagingMap (directory virt phys : ℕ) (flags : ℕ) : KernelM Int := do
  if virt % 4096 ≠ 0 || phys % 4096 ≠ 0 then return -EINVARG
  let d ← getChunk directory
  pagingSet d virt (phys ||| flags)

/-- `count` rounds of the loop of `paging_map_range`. -/
def pagingMapRange (directory : ℕ) : (virt phys : ℕ) → (count : ℕ) → (flags : ℕ) → KernelM Int
  | _, _, 0, _ => return 0
  | virt, phys, count + 1, flags => do
    let res ← pagingMap directory virt phys flags
    if res < 0 then return res
    pagingMapRange directory ((virt + 4096) % 4294967296) ((phys + 4096) % 4294967296) count flags

/-- `paging_map_to`, of the pages from `phys` to `physEnd`. -/
def pagingMapTo (directory virt phys physEnd : ℕ) (flags : ℕ) : KernelM Int := do
  if virt % 4096 ≠ 0 then return -EINVARG
  if phys % 4096 ≠ 0 then return -EINVARG
  if physEnd % 4096 ≠ 0 then return -EINVARG
  if physEnd < phys then return -EINVARG
  let totalBytes := physEnd - phys
  let totalPages := totalBytes / 4096
  pagingMapRange directory virt phys totalPages flags

/-- The kernel's own address space. -/
def kernelPage : KernelM Unit := do
  let k ← get
  pagingSwitch k.kernelChunk

end Hyperion
