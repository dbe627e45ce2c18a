import Hyperion.Elf
import Hyperion.Task

/-!
# Processes

`process.c`, and the system calls of `isr80h/heap.c` and `isr80h/process.c` that use it.
-/

namespace Hyperion

open Partial

/-! ## The table of processes -/

/-- `process_get`, null outside the table. -/
def processGet (processId : Int) : KernelM ℕ := do
  let k ← get
  if processId < 0 ∨ (maxProcesses : Int) ≤ processId then return 0
  return k.processes processId.toNat

def processSwitch (process : ℕ) : KernelM Unit :=
  modify fun k => { k with currentProcess := process }

/-- The loop of `process_switch_to_any`, `fuel` slots from `i` on. -/
def processSwitchToAnyLoop : (fuel i : ℕ) → KernelM Unit
  | 0, _ => panic
  | fuel + 1, i => do
    let k ← get
    if k.processes i ≠ 0 then processSwitch (k.processes i)
    else processSwitchToAnyLoop fuel (i + 1)

/-- The first process of the table. -/
def processSwitchToAny : KernelM Unit := processSwitchToAnyLoop maxProcesses 0

/-- The loop of `progess_get_free_slot`, `fuel` slots from `i` on. -/
def processGetFreeSlotLoop (processes : ℕ → ℕ) : (fuel i : ℕ) → Int
  | 0, _ => -EISTKN
  | fuel + 1, i => if processes i = 0 then i else processGetFreeSlotLoop processes fuel (i + 1)

/-- `progess_get_free_slot`. -/
def processGetFreeSlot (processes : ℕ → ℕ) : Int :=
  processGetFreeSlotLoop processes maxProcesses 0

/-! ## Allocations -/

/-- The loop of `process_find_free_allocation_index`, `fuel` records from `i` on. -/
def processFindFreeAllocationIndexLoop (p : Process) : (fuel i : ℕ) → Int
  | 0, _ => -ENOMEM
  | fuel + 1, i =>
    if (p.allocations i).ptr = 0 then i else processFindFreeAllocationIndexLoop p fuel (i + 1)

def processFindFreeAllocationIndex (p : Process) : Int :=
  processFindFreeAllocationIndexLoop p maxProgramAllocations 0

/-- The process with `a` in the allocation record `index`. -/
def Process.withAllocation (p : Process) (index : ℕ) (a : ProcessAllocation) : Process :=
  { p with allocations := fun i => if i = index then a else p.allocations i }

/-- `process_malloc`. The memory is given back if it cannot be recorded or mapped. -/
def processMalloc (process size : ℕ) : KernelM ℕ := do
  let ptr ← kzalloc size
  if ptr = 0 then return 0
  let p ← getProcess process
  let index := processFindFreeAllocationIndex p
  if index < 0 then
    kfree ptr
    return 0
  let task ← getTask p.task
  let res ← pagingMapTo task.pageDirectory ptr ptr
    (pagingAlignAddress ((ptr + size) % 4294967296))
    (pagingIsWriteable ||| pagingIsPresent ||| pagingAccessFromAll)
  if res < 0 then
    kfree ptr
    return 0
  modifyProcess process fun p => p.withAllocation index.toNat ⟨ptr, size⟩
  return ptr

/-- The process without the allocation records of `ptr`. -/
def processAllocationUnjoin (p : Process) (ptr : ℕ) : Process :=
  { p with allocations := fun i =>
      if i < maxProgramAllocations ∧ (p.allocations i).ptr = ptr then ⟨0, 0⟩
      else p.allocations i }

/-- The loop of `process_get_allocation_by_addr`, `fuel` records from `i` on. -/
def processGetAllocationByAddrLoop (p : Process) (addr : ℕ) :
    (fuel i : ℕ) → Option ProcessAllocation
  | 0, _ => none
  | fuel + 1, i =>
    if (p.allocations i).ptr = addr then some (p.allocations i)
    else processGetAllocationByAddrLoop p addr fuel (i + 1)

def processGetAllocationByAddr (p : Process) (addr : ℕ) : Option ProcessAllocation :=
  processGetAllocationByAddrLoop p addr maxProgramAllocations 0

/-- `process_free`. A pointer without a record is left alone. -/
def processFree (process ptr : ℕ) : KernelM Unit := do
  let p ← getProcess process
  match processGetAllocationByAddr p ptr with
  | none => return
  | some allocation =>
    let task ← getTask p.task
    let res ← pagingMapTo task.pageDirectory allocation.ptr allocation.ptr
      (pagingAlignAddress ((allocation.ptr + allocation.size) % 4294967296)) 0
    if res < 0 then return
    modifyProcess process fun p => processAllocationUnjoin p ptr
    kfree ptr

/-! ## The end of a process -/

/-- The loop of `process_terminate_allocations`, `fuel` records from `i` on. -/
def processTerminateAllocationsLoop (process : ℕ) : (fuel i : ℕ) → KernelM Unit
  | 0, _ => return
  | fuel + 1, i => do
    let p ← getProcess process
    processFree process (p.allocations i).ptr
    processTerminateAllocationsLoop process fuel (i + 1)

def processTerminateAllocations (process : ℕ) : KernelM Unit :=
  processTerminateAllocationsLoop process maxProgramAllocations 0

/-- The status is always 0. -/
def processFreeProgramData (process : ℕ) : KernelM Unit := do
  let p ← getProcess process
  match p.filetype, p.data with
  | .binary, .ptr ptr => kfree ptr
  | .elf, .elfFile file => elfClose file
  -- the other member of the union
  | _, _ => fault

/-- The slot is emptied. -/
def processUnlink (process : ℕ) : KernelM Unit := do
  let p ← getProcess process
  modify fun k => { k with processes := fun i => if i = p.pid then 0 else k.processes i }
  let k ← get
  if k.currentProcess = process then processSwitchToAny

/-- The structure of the process is not freed. -/
def processTerminate (process : ℕ) : KernelM Int := do
  processTerminateAllocations process
  processFreeProgramData process
  let p ← getProcess process
  kfree p.stack
  taskFree p.task
  processUnlink process
  return 0

/-! ## Loading -/

/-- `process_load_binary` with the file open. -/
def processLoadBinaryOpened (process : ℕ) (fd : Int) : KernelM Int := do
  let (res, stat) ← fstat fd
  if res ≠ 0 then return res
  let programDataPtr ← kzalloc stat.filesize
  if programDataPtr = 0 then return -ENOMEM
  let n ← fread programDataPtr stat.filesize 1 fd
  if n ≠ 1 then return - EIO
  modifyProcess process fun p =>
    { p with filetype := .binary, data := .ptr programDataPtr, size := stat.filesize }
  return 0

/-- A flat program, loaded at one address. -/
def processLoadBinary (filename : List UInt8) (process : ℕ) : KernelM Int := do
  let fd ← fopen filename [114]
  if fd = 0 then
    let _ ← fclose fd
    return - EIO
  let res ← processLoadBinaryOpened process fd
  let _ ← fclose fd
  return res

/-- An ELF program. -/
def processLoadElf (filename : List UInt8) (process : ℕ) : KernelM Int := do
  let loaded ← elfLoad filename
  if loaded.res < 0 then return loaded.res
  let file ← defined loaded.file
  modifyProcess process fun p => { p with filetype := .elf, data := .elfFile file }
  return loaded.res

/-- A file that is no ELF file is a flat program. -/
def processLoadData (filename : List UInt8) (process : ℕ) : KernelM Int := do
  let res ← processLoadElf filename process
  if res = -EINFORMAT then processLoadBinary filename process
  else return res

/-- The result of the mapping is not looked at. -/
def processMapBinary (process : ℕ) : KernelM Int := do
  let p ← getProcess process
  let task ← getTask p.task
  match p.data with
  | .ptr ptr =>
    let _ ← pagingMapTo task.pageDirectory programVirtualAddress ptr
      (pagingAlignAddress ((ptr + p.size) % 4294967296))
      (pagingIsPresent ||| pagingAccessFromAll ||| pagingIsWriteable)
    return 0
  | .elfFile _ => fault

/-- What `process_map_elf` maps for one program header : the virtual page, the physical
page, the end and the flags. -/
def elfMapping (file : ElfFile) (phdr : ℕ) : Probe (ℕ × ℕ × ℕ × ℕ) := do
  let phys ← elfPhdrPhysAddress file phdr
  let pflags ← pFlags phdr
  let vaddr ← pVaddr phdr
  let memsz ← pMemsz phdr
  let flags := pagingIsPresent ||| pagingAccessFromAll
  return (pagingAlignToLowerPage vaddr, pagingAlignToLowerPage phys,
    pagingAlignAddress ((phys + memsz) % 4294967296),
    if pflags &&& pfW ≠ 0 then flags ||| pagingIsWriteable else flags)

/-- The loop of `process_map_elf`, `fuel` headers from number `i` on. -/
def processMapElfLoop (process : ℕ) (file : ElfFile) (phdrs : ℕ) : (fuel i : ℕ) → KernelM Int
  | 0, _ => return 0
  | fuel + 1, i => do
    let k ← get
    let p ← getProcess process
    let task ← getTask p.task
    let (virt, phys, physEnd, flags) :=
      (elfMapping file ((phdrs + phdrSize * i) % 4294967296)).value k.mem
    let res ← pagingMapTo task.pageDirectory virt phys physEnd flags
    if res < 0 then return res
    processMapElfLoop process file phdrs fuel (i + 1)

/-- The segments of an ELF program. -/
def processMapElf (process : ℕ) : KernelM Int := do
  let p ← getProcess process
  match p.data with
  | .elfFile file =>
    let k ← get
    let phdrs := (elfPheader file.elfMemory).value k.mem
    processMapElfLoop process file phdrs ((ePhnum file.elfMemory).value k.mem) 0
  | .ptr _ => fault

/-- The result of mapping the stack is not looked at. -/
def processMapMemory (process : ℕ) : KernelM Int := do
  let p ← getProcess process
  let res ← match p.filetype with
    | .elf => processMapElf process
    | .binary => processMapBinary process
  if res < 0 then return res
  let task ← getTask p.task
  let _ ← pagingMapTo task.pageDirectory programVirtualStackAddressEnd p.stack
    (pagingAlignAddress ((p.stack + userProgramStackSize) % 4294967296))
    (pagingIsPresent ||| pagingAccessFromAll ||| pagingIsWriteable)
  return res

/-- `process_load_for_slot` from the loaded data on, with the structure at `process`. -/
def processLoadTask (filename : List UInt8) (process slot : ℕ) : KernelM (Int × ℕ) := do
  let programStackPtr ← kzalloc userProgramStackSize
  if programStackPtr = 0 then return (-ENOMEM, 0)
  modifyProcess process fun p =>
    { p with filename := filename.take (maxPath - 1), stack := programStackPtr, pid := slot }
  let task ← taskNew process
  -- `ERROR_I` of an error is not 0
  if asSigned task = 0 then return (0, 0)
  modifyProcess process fun p => { p with task := task }
  let res ← processMapMemory process
  if res < 0 then
    taskFree task
    return (res, 0)
  modify fun k => { k with processes := fun i => if i = slot then process else k.processes i }
  return (res, process)

/-- The status, and the process if it was loaded. Before there is a task nothing is freed
when the load fails, and with it only the task. -/
def processLoadForSlot (filename : List UInt8) (slot : ℕ) : KernelM (Int × ℕ) := do
  let taken ← processGet slot
  if taken ≠ 0 then return (-EISTKN, 0)
  let process ← kzalloc 9364
  if process = 0 then return (-ENOMEM, 0)
  putObj process (.process Process.zero)
  let res ← processLoadData filename process
  if res < 0 then return (res, 0)
  processLoadTask filename process slot

/-- `process_load`, into the first free slot. -/
def processLoad (filename : List UInt8) : KernelM (Int × ℕ) := do
  let k ← get
  let slot := processGetFreeSlot k.processes
  if slot < 0 then return (-EISTKN, 0)
  processLoadForSlot filename slot.toNat

/-- `process_load_switch`. -/
def processLoadSwitch (filename : List UInt8) : KernelM (Int × ℕ) := do
  let (res, process) ← processLoad filename
  if res = 0 then processSwitch process
  return (res, process)

/-! ## Arguments -/

/-- The string at `a`, of which `strncpy` copies at most `n` characters. -/
def stringAt (m : ℕ → UInt8) : (n a : ℕ) → List UInt8
  | 0, _ => []
  | n + 1, a => if m a = 0 then [] else m a :: stringAt m n (a + 1)

/-- `current->next` of the `struct command_argument` at `a`. -/
def commandArgumentNext (m : ℕ → UInt8) (a : ℕ) : ℕ := word32 m (a + 512)

/-- The loop of `process_count_command_arguments` from `i` on, which does not end after
`fuel` arguments if there are more. -/
def processCountCommandArgumentsLoop (m : ℕ → UInt8) : (fuel current i : ℕ) → Option ℕ
  | 0, current, i => if current = 0 then some i else none
  | fuel + 1, current, i =>
    if current = 0 then some i
    else processCountCommandArgumentsLoop m fuel (commandArgumentNext m current) (i + 1)

def processCountCommandArguments (m : ℕ → UInt8) (fuel rootArgument : ℕ) : Option ℕ :=
  processCountCommandArgumentsLoop m fuel rootArgument 0

/-- The bytes of a 32-bit word. -/
def wordBytes (v : ℕ) : List UInt8 :=
  [UInt8.ofNat v, UInt8.ofNat (v / 256), UInt8.ofNat (v / 65536), UInt8.ofNat (v / 16777216)]

/-- The loop of `process_inject_arguments` over the list. -/
def processInjectArgumentsLoop (process argv : ℕ) : (fuel current i : ℕ) → KernelM Int
  | 0, current, _ => if current = 0 then return 0 else fault
  | fuel + 1, current, i => do
    if current = 0 then return 0
    let argumentStr ← processMalloc process 512
    if argumentStr = 0 then return -ENOMEM
    let k ← get
    storeBytes argumentStr (stringAt k.mem 511 current ++ [0])
    storeBytes ((argv + 4 * i) % 4294967296) (wordBytes argumentStr)
    let k ← get
    processInjectArgumentsLoop process argv fuel (commandArgumentNext k.mem current) (i + 1)

/-- A list with more than `fuel` arguments has no result. -/
def processInjectArguments (fuel process rootArgument : ℕ) : KernelM Int := do
  let k ← get
  let argc ← defined (processCountCommandArguments k.mem fuel rootArgument)
  if argc = 0 then return - EIO
  let argv ← processMalloc process (4 * argc % 4294967296)
  if argv = 0 then return -ENOMEM
  let res ← processInjectArgumentsLoop process argv fuel rootArgument 0
  if res < 0 then return res
  modifyProcess process fun p => { p with arguments := ⟨wrapInt argc, argv⟩ }
  return res

/-! ## System calls -/

/-- Item `index` of the stack of a task. -/
def taskGetStackItem (task index : ℕ) : KernelM ℕ := do
  let t ← getTask task
  let spPtr := (t.registers.esp + 4 * index) % 4294967296
  pagingSwitch t.pageDirectory
  let directory ← getChunk t.pageDirectory
  let b₀ ← readVirtual directory spPtr
  let b₁ ← readVirtual directory ((spPtr + 1) % 4294967296)
  let b₂ ← readVirtual directory ((spPtr + 2) % 4294967296)
  let b₃ ← readVirtual directory ((spPtr + 3) % 4294967296)
  kernelPage
  return b₀.toNat + b₁.toNat * 256 + b₂.toNat * 65536 + b₃.toNat * 16777216

/-- Through the page tables of the task. -/
def taskVirtualAddressToPhysical (task virt : ℕ) : KernelM ℕ := do
  let t ← getTask task
  let directory ← getChunk t.pageDirectory
  pagingGetPhysicalAddress directory virt

/-- `isr80h_command4_malloc`, for the process of the current task. -/
def isr80hCommand4Malloc : KernelM ℕ := do
  let k ← get
  let size ← taskGetStackItem k.currentTask 0
  let task ← getTask k.currentTask
  processMalloc task.process size

/-- `isr80h_command5_free`. -/
def isr80hCommand5Free : KernelM Unit := do
  let k ← get
  let ptrToFree ← taskGetStackItem k.currentTask 0
  let task ← getTask k.currentTask
  processFree task.process ptrToFree

/-- How a system call that starts a program ends : it returns a value to its caller, or
goes to user land in the task of the new process. -/
inductive CommandEnd
  | returned (value : ℕ)
  | entered (task : ℕ)
  deriving DecidableEq

/-- `task_switch` to the task of a process, and `task_return`. -/
def processEnter (process : ℕ) : KernelM CommandEnd := do
  let p ← getProcess process
  taskSwitch p.task
  return .entered p.task

/-- `"0:/"`. -/
def drivePrefix : List UInt8 := [48, 58, 47]

/-- `isr80h_command6_process_load_start`. The name is copied to `path` behind the drive. -/
def isr80hCommand6ProcessLoadStart : KernelM CommandEnd := do
  let k ← get
  let filenameUserPtr ← taskGetStackItem k.currentTask 0
  let (res, filename) ← copyStringFromTask k.currentTask filenameUserPtr maxPath
  if res < 0 then return .returned 0
  -- `strcpy` past the end of `path`
  if maxPath < filename.length + 4 then fault
  let (res, process) ← processLoadSwitch (drivePrefix ++ filename)
  if res < 0 then return .returned 0
  processEnter process

/-- `isr80h_command7_invoke_system_command` with the list at `arguments`. -/
def invokeSystemCommand (fuel arguments : ℕ) : KernelM CommandEnd := do
  let k ← get
  if arguments = 0 ∨ k.mem arguments = 0 then return .returned (errorPtr (-EINVARG))
  let programName := stringAt k.mem (maxPath - 1) arguments
  -- `strncpy` past the end of `path`
  if maxPath < programName.length + 4 then fault
  let (res, process) ← processLoadSwitch (drivePrefix ++ programName)
  if res < 0 then return .returned (errorPtr res)
  let res ← processInjectArguments fuel process arguments
  if res < 0 then return .returned (errorPtr res)
  processEnter process

/-- `isr80h_command7_invoke_system_command`, with the list translated. -/
def isr80hCommand7InvokeSystemCommand (fuel : ℕ) : KernelM CommandEnd := do
  let k ← get
  let item ← taskGetStackItem k.currentTask 0
  let arguments ← taskVirtualAddressToPhysical k.currentTask item
  invokeSystemCommand fuel arguments

/-- The task that the exit of the current process switches to. -/
def isr80hCommand9Exit : KernelM ℕ := do
  let k ← get
  let task ← getTask k.currentTask
  let _ ← processTerminate task.process
  taskNext

end Hyperion
