import Hyperion.HeapTable
import Hyperion.Lib.Partial

/-!
# The kernel state

The structures of `task.h`, `process.h`, `file.h` and `fat16.c`, the global variables,
and `kzalloc` and `kfree` on the kernel heap of `kheap_init`.

An address is a natural number below `2 ^ 32`, the null pointer is 0. Memory is split in
two. `store` keeps the structures that are linked by pointers (the
processes, the tasks and the paging structures), each under its address. `mem` keeps
the bytes of everything else. Following a pointer to no live structure has no defined
result, so such a program has no next state, and neither has one that panics.
Structures with one owner (an ELF file, an open file with its FAT descriptor and
item) are kept by value, with the addresses they were allocated at.
-/

namespace Hyperion

open Partial

/-! ## `task.h` -/

/-- `struct registers`. -/
structure Registers where
  edi : ℕ
  esi : ℕ
  ebp : ℕ
  ebx : ℕ
  edx : ℕ
  ecx : ℕ
  eax : ℕ
  ip : ℕ
  cs : ℕ
  flags : ℕ
  esp : ℕ
  ss : ℕ
  deriving DecidableEq

/-- `struct task`. -/
structure Task where
  pageDirectory : ℕ
  registers : Registers
  process : ℕ
  next : ℕ
  prev : ℕ

/-! ## `process.h` -/

/-- `struct process_allocation`. -/
structure ProcessAllocation where
  ptr : ℕ
  size : ℕ
  deriving DecidableEq

/-- `struct elf_file`, at the address `self`. -/
structure ElfFile where
  self : ℕ
  elfMemory : ℕ
  virtualBaseAddress : ℕ
  virtualEndAddress : ℕ
  physicalBaseAddress : ℕ
  physicalEndAddress : ℕ
  deriving DecidableEq

/-- `PROCESS_FILETYPE`. -/
inductive ProcessFiletype
  | elf
  | binary
  deriving DecidableEq

/-- The union of `ptr` and `elf_file`. -/
inductive ProcessData
  | ptr (p : ℕ)
  | elfFile (f : ElfFile)
  deriving DecidableEq

/-- `struct keyboard_buffer`. -/
structure KeyboardBuffer where
  buffer : ℕ → UInt8
  tail : Int
  head : Int

/-- `struct process_arguments`. -/
structure ProcessArguments where
  argc : Int
  argv : ℕ

/-- `struct process`. -/
structure Process where
  pid : ℕ
  filename : List UInt8
  task : ℕ
  allocations : ℕ → ProcessAllocation
  filetype : ProcessFiletype
  data : ProcessData
  stack : ℕ
  size : ℕ
  keyboard : KeyboardBuffer
  arguments : ProcessArguments

/-- What `process_init` leaves. -/
def Process.zero : Process where
  pid := 0
  filename := []
  task := 0
  allocations := fun _ => ⟨0, 0⟩
  filetype := .elf
  data := .ptr 0
  stack := 0
  size := 0
  keyboard := ⟨fun _ => 0, 0, 0⟩
  arguments := ⟨0, 0⟩

/-! ## `streamer.h`, `fat16.c` and `file.h` -/

/-- What the disk controller returns : the byte `j` of the block `lba`. -/
abbrev DiskImage := Int → ℕ → UInt8

/-- `struct disk_stream`. -/
structure DiskStream where
  pos : Int
  deriving DecidableEq

/-- The fields of `struct fat_h` that are read. -/
structure FatHeader where
  sectorsPerCluster : ℕ
  reservedSectors : ℕ
  fatCopies : ℕ
  rootDirEntries : ℕ
  sectorsPerFat : ℕ
  signature : ℕ
  deriving DecidableEq

/-- `struct fat_directory`. `bytes` is the array that `item` points to. -/
structure FatDirectory where
  item : ℕ
  bytes : List UInt8
  total : Int
  sectorPos : Int
  endingSectorPos : Int
  deriving DecidableEq

/-- `FAT_ITEM_TYPE`. -/
inductive FatItemType
  | directory
  | file
  deriving DecidableEq

/-- The union of `item` and `directory`, each with its address. -/
inductive FatItemUnion
  | null
  | item (p : ℕ) (bytes : List UInt8)
  | directory (p : ℕ) (d : FatDirectory)
  deriving DecidableEq

/-- `struct fat_item`, at the address `self`. -/
structure FatItem where
  self : ℕ
  union : FatItemUnion
  type : FatItemType
  deriving DecidableEq

/-- `struct fat_file_descriptor`, at the address `self`. -/
structure FatFileDescriptor where
  self : ℕ
  item : FatItem
  pos : ℕ
  deriving DecidableEq

/-- `struct fat_private`, without the three streams : every use of one seeks first. -/
structure FatPrivate where
  header : FatHeader
  rootDirectory : FatDirectory
  deriving DecidableEq

/-- `struct file_descriptor`, at the address `self`. -/
structure FileDescriptor where
  self : ℕ
  index : Int
  privateData : FatFileDescriptor
  deriving DecidableEq

/-- The global `struct disk`. There is one, and its only filesystem is FAT16. -/
structure DiskState where
  filesystem : Bool
  fsPrivate : Option FatPrivate

/-! ## The state -/

/-- The structures kept under their address. `chunk` is `struct paging_4gb_chunk`, which
points to a page directory. -/
inductive Obj
  | process (p : Process)
  | task (t : Task)
  | chunk (directoryEntry : ℕ)
  | directory (entries : ℕ → ℕ)
  | table (entries : ℕ → ℕ)

structure Kernel where
  /-- `kernel_heap_table.entries`. -/
  heapTable : Int → UInt8
  /-- History : some request was answered with the start of a run that is too short.
  No function reads it. -/
  shortRun : Bool
  store : ℕ → Option Obj
  mem : ℕ → UInt8
  /-- `processes`. -/
  processes : ℕ → ℕ
  currentProcess : ℕ
  taskHead : ℕ
  taskTail : ℕ
  currentTask : ℕ
  /-- `kernel_chunk`. -/
  kernelChunk : ℕ
  /-- `current_directory`, the directory the CPU translates with. -/
  currentDirectory : ℕ
  /-- `file_descriptors`. -/
  fileDescriptors : ℕ → Option FileDescriptor
  disk : DiskState
  image : DiskImage

/-- A kernel with nothing allocated. -/
def Kernel.empty : Kernel where
  heapTable := fun _ => blockFree
  shortRun := false
  store := fun _ => none
  mem := fun _ => 0
  processes := fun _ => 0
  currentProcess := 0
  taskHead := 0
  taskTail := 0
  currentTask := 0
  kernelChunk := 0
  currentDirectory := 0
  fileDescriptors := fun _ => none
  disk := ⟨false, none⟩
  image := fun _ _ => 0

abbrev KernelM := Prog Kernel

/-- `kernel_heap`, as `kheap_init` creates it. -/
def Kernel.heap (k : Kernel) : Heap := ⟨⟨k.heapTable, heapTotalBlocks⟩, heapAddress⟩

/-- `panic` does not return. -/
def panic {α : Type} : KernelM α := fault

/-! ## `kheap.c` -/

/-- The answer to a request of `n` blocks is a run that is too short. -/
def Kernel.answersShort (k : Kernel) (n : ℕ) : Bool :=
  0 ≤ heapGetStartBlock k.heap n && (heapTotalBlocks : Int) < heapGetStartBlock k.heap n + n

def kmalloc (size : ℕ) : KernelM ℕ := fun k =>
  let r := heapMalloc k.heap size
  some (r.1, { k with
    heapTable := r.2.table.entries
    shortRun := k.shortRun || k.answersShort (heapAlignValueToUpper size / 4096) })

/-- `kmalloc`, and the memory cleared. A `memset` that runs past the end of the address
space clears the kernel itself, and does not return. -/
def kzalloc (size : ℕ) : KernelM ℕ := do
  let ptr ← kmalloc size
  if ptr = 0 then return 0
  if 4294967296 < ptr + size then fault
  modify fun k => { k with
    store := fun a => if a = ptr ∧ 0 < size then none else k.store a
    mem := fun a => if ptr ≤ a ∧ a < ptr + size then 0 else k.mem a }
  return ptr

/-- Nothing may be reached through a freed pointer. -/
def Kernel.release (k : Kernel) (ptr : ℕ) : Kernel := { k with
  heapTable := (heapFree k.heap ptr).table.entries
  store := fun a => if a = ptr then none else k.store a }

def kfree (ptr : ℕ) : KernelM Unit := modify fun k => k.release ptr

/-! ## Following pointers -/

def getObj (a : ℕ) : KernelM Obj := fun k =>
  if a = 0 then none else (k.store a).map fun o => (o, k)

/-- The state with `o` stored at `a`. -/
def Kernel.put (k : Kernel) (a : ℕ) (o : Obj) : Kernel := { k with
  store := fun b => if b = a then some o else k.store b }

def putObj (a : ℕ) (o : Obj) : KernelM Unit := fun k =>
  if a = 0 then none else some ((), k.put a o)

def getTask (a : ℕ) : KernelM Task := do
  match ← getObj a with
  | .task t => return t
  | _ => fault

def modifyTask (a : ℕ) (f : Task → Task) : KernelM Unit := do
  let t ← getTask a
  putObj a (.task (f t))

def getProcess (a : ℕ) : KernelM Process := do
  match ← getObj a with
  | .process p => return p
  | _ => fault

def modifyProcess (a : ℕ) (f : Process → Process) : KernelM Unit := do
  let p ← getProcess a
  putObj a (.process (f p))

def getChunk (a : ℕ) : KernelM ℕ := do
  match ← getObj a with
  | .chunk d => return d
  | _ => fault

def getDirectory (a : ℕ) : KernelM (ℕ → ℕ) := do
  match ← getObj a with
  | .directory f => return f
  | _ => fault

def getTable (a : ℕ) : KernelM (ℕ → ℕ) := do
  match ← getObj a with
  | .table f => return f
  | _ => fault

/-- The 32-bit little-endian word at `a`. -/
def word32 (m : ℕ → UInt8) (a : ℕ) : ℕ :=
  (m a).toNat + (m (a + 1)).toNat * 256 + (m (a + 2)).toNat * 65536 +
    (m (a + 3)).toNat * 16777216

/-- The 16-bit little-endian word at `a`. -/
def word16 (m : ℕ → UInt8) (a : ℕ) : ℕ := (m a).toNat + (m (a + 1)).toNat * 256

/-- The state with the bytes `bs` in memory from `p` on. -/
def Kernel.withBytes (k : Kernel) (p : ℕ) (bs : List UInt8) : Kernel := { k with
  mem := fun a => if p ≤ a ∧ a < p + bs.length then bs.getD (a - p) 0 else k.mem a }

/-- `bs` stored from `p` on. Storing through a null pointer has no defined result. -/
def storeBytes (p : ℕ) (bs : List UInt8) : KernelM Unit := fun k =>
  if p = 0 ∧ bs ≠ [] then none else some ((), k.withBytes p bs)

/-- `ERROR(res)`, an error code as a pointer. -/
def errorPtr (res : Int) : ℕ := asUnsigned res

/-- `IS_ERR` of a pointer. -/
def isErrPtr (p : ℕ) : Bool := asSigned p < 0

end Hyperion
