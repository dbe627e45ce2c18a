import Hyperion.Paging

/-!
# Tasks

`task.c` : the list of tasks, the switches between them and the access to the memory of
a task. The assembly routine `task_return` is modelled on its own.
-/

namespace Hyperion

open Partial

/-- `struct interrupt_frame` of `idt.h`. -/
structure InterruptFrame where
  edi : ℕ
  esi : ℕ
  ebp : ℕ
  reserved : ℕ
  ebx : ℕ
  edx : ℕ
  ecx : ℕ
  eax : ℕ
  ip : ℕ
  cs : ℕ
  flags : ℕ
  esp : ℕ
  ss : ℕ
  deriving DecidableEq

/-- A cleared `struct task`. -/
def Task.zero : Task := ⟨0, ⟨0, 0, 0, 0, 0, 0, 0, 0, 0, 0, 0, 0⟩, 0, 0, 0⟩

/-- `elf_header(file)->e_entry`. -/
def elfEntry (file : ElfFile) : KernelM ℕ := do
  let k ← get
  if file.elfMemory = 0 then fault
  return word32 k.mem (file.elfMemory + 24)

def taskInit (task process : ℕ) : KernelM Int := do
  putObj task (.task Task.zero)
  let pageDirectory ← pagingNew4gb (pagingIsPresent ||| pagingAccessFromAll)
  modifyTask task fun t => { t with pageDirectory := pageDirectory }
  if pageDirectory = 0 then return - EIO
  modifyTask task fun t =>
    { t with registers := { t.registers with ip := programVirtualAddress } }
  let p ← getProcess process
  if p.filetype = .elf then
    match p.data with
    | .elfFile f =>
      let entry ← elfEntry f
      modifyTask task fun t => { t with registers := { t.registers with ip := entry } }
    | .ptr _ => fault
  modifyTask task fun t =>
    { t with
      registers := { t.registers with
        ss := userDataSegment
        cs := userCodeSegment
        esp := programVirtualStackAddressStart }
      process := process }
  return 0

/-- Reads `current_task->next`, also when there is no current task. -/
def taskGetNext : KernelM ℕ := do
  let k ← get
  let t ← getTask k.currentTask
  if t.next = 0 then return k.taskHead
  return t.next

/-- The global pointers in `task_list_remove`. -/
def taskListRemoveGlobals (task : ℕ) : KernelM Unit := do
  let t ← getTask task
  modify fun k => { k with taskHead := if task = k.taskHead then t.next else k.taskHead }
  modify fun k => { k with taskTail := if task = k.taskTail then t.prev else k.taskTail }
  let k ← get
  if task = k.currentTask then
    let next ← taskGetNext
    modify fun k => { k with currentTask := next }

def taskListRemove (task : ℕ) : KernelM Unit := do
  let t ← getTask task
  if t.prev ≠ 0 then modifyTask t.prev fun q => { q with next := t.next }
  taskListRemoveGlobals task

def taskFree (task : ℕ) : KernelM Unit := do
  let t ← getTask task
  pagingFree4gb t.pageDirectory
  taskListRemove task
  kfree task

/-- The new task, or an error code as a pointer. -/
def taskNew (process : ℕ) : KernelM ℕ := do
  let task ← kzalloc 64
  if task = 0 then
    taskFree task
    return errorPtr (-ENOMEM)
  let res ← taskInit task process
  if res ≠ 0 then
    if res < 0 then
      taskFree task
      return errorPtr res
    return task
  let k ← get
  if k.taskHead = 0 then
    set { k with taskHead := task, taskTail := task, currentTask := task }
    return task
  modifyTask k.taskTail fun t => { t with next := task }
  modifyTask task fun t => { t with prev := k.taskTail }
  modify fun k => { k with taskTail := task }
  return task

def taskSwitch (task : ℕ) : KernelM Unit := do
  modify fun k => { k with currentTask := task }
  let t ← getTask task
  pagingSwitch t.pageDirectory

/-- The task switched to, whose registers `task_return` then loads. -/
def taskNext : KernelM ℕ := do
  let nextTask ← taskGetNext
  if nextTask = 0 then panic
  taskSwitch nextTask
  return nextTask

/-- The task that `task_return` then goes to. -/
def taskRunFirstEverTask : KernelM ℕ := do
  let k ← get
  if k.currentTask = 0 then panic
  taskSwitch k.taskHead
  return k.taskHead

/-- The registers that `task_save_state` copies from a frame. -/
def InterruptFrame.saved (frame : InterruptFrame) : Registers where
  ip := frame.ip
  cs := frame.cs
  flags := frame.flags
  esp := frame.esp
  ss := frame.ss
  eax := frame.eax
  ebp := frame.ebp
  ebx := frame.ebx
  ecx := frame.ecx
  edi := frame.edi
  edx := frame.edx
  esi := frame.esi

def taskSaveState (task : ℕ) (frame : InterruptFrame) : KernelM Unit :=
  modifyTask task fun t => { t with registers := frame.saved }

/-- The byte at a virtual address, through the directory `directory`. A page that is
not present stops the kernel. -/
def readVirtual (directory virt : ℕ) : KernelM UInt8 := do
  let entry ← pagingGet directory (pagingAlignToLowerPage virt)
  if entry &&& pagingIsPresent = 0 then fault
  let phys ← pagingGetPhysicalAddress directory virt
  let k ← get
  return k.mem phys

/-- The loop of `strncpy(tmp, virtual, max)` under the directory `directory`, in which
`tmp` is mapped to itself, `fuel` rounds. The bytes copied before the NUL. -/
def strncpyVirtual (directory : ℕ) : (fuel : ℕ) → (tmp virt : ℕ) → KernelM (List UInt8)
  | 0, _, _ => return []
  | fuel + 1, tmp, virt => do
    let c ← readVirtual directory virt
    if c = 0 then return []
    storeBytes tmp [c]
    let rest ← strncpyVirtual directory fuel (tmp + 1) ((virt + 1) % 4294967296)
    return c :: rest

/-- The status, and the string stored at `phys` when it is 0. -/
def copyStringFromTask (task virt : ℕ) (max : Int) : KernelM (Int × List UInt8) := do
  if max ≥ 4096 then return (-EINVARG, [])
  let tmp ← kzalloc (asUnsigned max)
  if tmp = 0 then return (-ENOMEM, [])
  let t ← getTask task
  let taskDirectory ← getChunk t.pageDirectory
  let oldEntry ← pagingGet taskDirectory tmp
  let _ ← pagingMap t.pageDirectory tmp tmp
    (pagingIsWriteable ||| pagingIsPresent ||| pagingAccessFromAll)
  pagingSwitch t.pageDirectory
  let copied ← strncpyVirtual taskDirectory (max - 1).toNat tmp virt
  storeBytes (tmp + copied.length) [0]
  kernelPage
  let res ← pagingSet taskDirectory tmp oldEntry
  if res < 0 then
    kfree tmp
    return (- EIO, [])
  kfree tmp
  return (0, copied)

end Hyperion
