import Hyperion.Fat16
import Hyperion.PathParser

/-!
# Files

`file.c` and the file operations of `fat16.c`. There is one disk and its file system is
FAT16.
-/

namespace Hyperion

open Partial

/-- `FILE_MODE`. -/
inductive FileMode
  | read
  | write
  | append
  | invalid
  deriving DecidableEq

/-- `FILE_SEEK_MODE`. Other values than the three named ones can be passed. -/
inductive FileSeekMode
  | seekSet
  | seekCur
  | seekEnd
  | other
  deriving DecidableEq

/-- `struct file_stat`. -/
structure FileStat where
  readOnly : Bool
  filesize : ℕ
  deriving DecidableEq

/-! ## The operations of `fat16.c` -/

/-- The descriptor, or an error code as a pointer. -/
def fat16Open (path : List (List UInt8)) (mode : FileMode) :
    KernelM (Except Int FatFileDescriptor) := do
  if mode ≠ .read then return .error (-ERDONLY)
  let descriptor ← kzalloc 8
  if descriptor = 0 then return .error (-ENOMEM)
  match ← fat16GetDirectoryEntry path with
  | none => return .error (- EIO)
  | some item => return .ok { self := descriptor, item := item, pos := 0 }

/-- The bytes of the entry that an item of type file points to. -/
def FatItem.entry (item : FatItem) : KernelM (List UInt8) :=
  match item.union with
  | .item _ bytes => return bytes
  | _ => fault

/-- `fat16_stat`, of the item of the descriptor. -/
def fat16Stat (descriptor : FatFileDescriptor) : KernelM (Int × FileStat) := do
  if descriptor.item.type ≠ .file then return (-EINVARG, ⟨false, 0⟩)
  let ritem ← descriptor.item.entry
  return (0, { readOnly := itemAttributes ritem &&& 0x01 ≠ 0, filesize := itemFilesize ritem })

/-- The loop of `fat16_read`, `fuel` rounds. -/
def fat16ReadLoop (item : List UInt8) (size : ℕ) :
    (fuel : ℕ) → (offset : Int) → (outPtr : ℕ) → KernelM Int
  | 0, _, _ => return 0
  | fuel + 1, offset, outPtr => do
    let fatPrivate ← fsPrivate
    let k ← get
    let (res, bytes) ←
      defined (fat16ReadInternal k.image fatPrivate (fat16GetFirstCluster item) offset
        (asSigned size))
    storeBytes outPtr bytes
    if res < 0 then return res
    fat16ReadLoop item size fuel (wrapInt (offset + size)) ((outPtr + size) % 4294967296)

/-- The descriptor is not changed. -/
def fat16Read (descriptor : FatFileDescriptor) (size nmemb outPtr : ℕ) : KernelM Int := do
  let item ← descriptor.item.entry
  let res ← fat16ReadLoop item size nmemb (asSigned descriptor.pos) outPtr
  if res < 0 then return res
  return asSigned nmemb

/-- The status and the descriptor afterwards. -/
def fat16Seek (desc : FatFileDescriptor) (offset : ℕ) (seekMode : FileSeekMode) :
    KernelM (Int × FatFileDescriptor) := do
  if desc.item.type ≠ .file then return (-EINVARG, desc)
  let ritem ← desc.item.entry
  if itemFilesize ritem ≤ offset then return (- EIO, desc)
  match seekMode with
  | .seekSet => return (0, { desc with pos := offset })
  | .seekEnd => return (-EUNIMP, desc)
  | .seekCur => return (0, { desc with pos := (desc.pos + offset) % 4294967296 })
  | .other => return (-EINVARG, desc)

/-- `fat16_close`. -/
def fat16Close (desc : FatFileDescriptor) : KernelM Int := do
  fat16FatItemFree desc.item
  kfree desc.self
  return 0

/-! ## `file.c` -/

/-- `file_descriptors[i] = d`. -/
def setFileDescriptor (i : ℕ) (d : Option FileDescriptor) : KernelM Unit :=
  modify fun k => { k with fileDescriptors := fun j => if j = i then d else k.fileDescriptors j }

/-- The loop of `file_new_descriptor`, `fuel` slots from `i` on. -/
def fileNewDescriptorLoop (privateData : FatFileDescriptor) : (fuel i : ℕ) → KernelM Int
  | 0, _ => return -ENOMEM
  | fuel + 1, i => do
    let k ← get
    if k.fileDescriptors i = none then
      let desc ← kzalloc 16
      if desc = 0 then fault
      setFileDescriptor i (some { self := desc, index := i + 1, privateData := privateData })
      return i + 1
    else fileNewDescriptorLoop privateData fuel (i + 1)

/-- The descriptor's index, which is what `fopen` stores its private data under. -/
def fileNewDescriptor (privateData : FatFileDescriptor) : KernelM Int :=
  fileNewDescriptorLoop privateData maxFileDescriptors 0

/-- The descriptors are numbered from 1. -/
def fileGetDescriptor (fd : Int) : KernelM (Option FileDescriptor) := do
  if fd ≤ 0 ∨ (maxFileDescriptors : Int) < fd then return none
  let k ← get
  return k.fileDescriptors (fd - 1).toNat

/-- The slot is emptied and the descriptor freed. -/
def fileFreeDescriptor (desc : FileDescriptor) : KernelM Unit := do
  setFileDescriptor (desc.index - 1).toNat none
  kfree desc.self

/-- By the first character. -/
def fileGetModeByString (str : List UInt8) : FileMode :=
  if strncmp str [114] 1 = 0 then .read
  else if strncmp str [119] 1 = 0 then .write
  else if strncmp str [97] 1 = 0 then .append
  else .invalid

/-- The index of the new descriptor, 0 on failure. -/
def fopen (filename modeStr : List UInt8) : KernelM Int := do
  match ← pathparserParse filename with
  | none => return 0
  | some rootPath =>
    if rootPath.parts = [] then return 0
    -- there is only disk 0
    if rootPath.driveNo ≠ 0 then return 0
    let k ← get
    if k.disk.filesystem = false then return 0
    let mode := fileGetModeByString modeStr
    if mode = .invalid then return 0
    match ← fat16Open rootPath.parts mode with
    | .error _ => return 0
    | .ok descriptor =>
      let res ← fileNewDescriptor descriptor
      if res < 0 then return 0
      return res

/-- `fstat`. -/
def fstat (fd : Int) : KernelM (Int × FileStat) := do
  match ← fileGetDescriptor fd with
  | none => return (- EIO, ⟨false, 0⟩)
  | some desc => fat16Stat desc.privateData

/-- `fseek`. -/
def fseek (fd : Int) (offset : Int) (whence : FileSeekMode) : KernelM Int := do
  match ← fileGetDescriptor fd with
  | none => return - EIO
  | some desc =>
    let (res, privateData) ← fat16Seek desc.privateData (asUnsigned offset) whence
    setFileDescriptor (fd - 1).toNat (some { desc with privateData := privateData })
    return res

/-- `fread`, of `nmemb` items of `size` bytes. -/
def fread (ptr size nmemb : ℕ) (fd : Int) : KernelM Int := do
  if size = 0 ∨ nmemb = 0 ∨ fd < 1 then return -EINVARG
  match ← fileGetDescriptor fd with
  | none => return -EINVARG
  | some desc => fat16Read desc.privateData size nmemb ptr

/-- `fclose`. -/
def fclose (fd : Int) : KernelM Int := do
  match ← fileGetDescriptor fd with
  | none => return - EIO
  | some desc =>
    let res ← fat16Close desc.privateData
    if res = 0 then fileFreeDescriptor desc
    return res

end Hyperion
