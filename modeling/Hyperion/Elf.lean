import Hyperion.File
import Hyperion.Lib.Probe

/-!
# The ELF loader

`elfloader.c`. A file is loaded whole, and its header and program headers are read where it
lies in memory, by addresses that are computed from the file's own fields.
-/

namespace Hyperion

open Partial

/-- `ET_EXEC`. -/
abbrev etExec : ℕ := 2

/-- `PT_LOAD`. -/
abbrev ptLoad : ℕ := 1

/-- `PF_W`. -/
abbrev pfW : ℕ := 0x02

/-- `sizeof(struct elf32_phdr)`. -/
abbrev phdrSize : ℕ := 32

/-! ## The fields -/

/-- `e_ident[EI_CLASS]`. -/
def eClass (header : ℕ) : Probe UInt8 := Probe.byte (header + 4)

/-- `e_ident[EI_DATA]`. -/
def eData (header : ℕ) : Probe UInt8 := Probe.byte (header + 5)

/-- `e_type`. -/
def eType (header : ℕ) : Probe ℕ := Probe.word16 (header + 16)

/-- `e_entry`. -/
def eEntry (header : ℕ) : Probe ℕ := Probe.word32 (header + 24)

/-- `e_phoff`. -/
def ePhoff (header : ℕ) : Probe ℕ := Probe.word32 (header + 28)

/-- `e_phnum`. -/
def ePhnum (header : ℕ) : Probe ℕ := Probe.word16 (header + 44)

/-- `p_type`. -/
def pType (phdr : ℕ) : Probe ℕ := Probe.word32 phdr

/-- `p_offset`. -/
def pOffset (phdr : ℕ) : Probe ℕ := Probe.word32 (phdr + 4)

/-- `p_vaddr`. -/
def pVaddr (phdr : ℕ) : Probe ℕ := Probe.word32 (phdr + 8)

/-- `p_filesz`. -/
def pFilesz (phdr : ℕ) : Probe ℕ := Probe.word32 (phdr + 16)

/-- `p_memsz`. -/
def pMemsz (phdr : ℕ) : Probe ℕ := Probe.word32 (phdr + 20)

/-- `p_flags`. -/
def pFlags (phdr : ℕ) : Probe ℕ := Probe.word32 (phdr + 24)

/-! ## The checks -/

/-- `elf_signature`. -/
def elfSignature : List UInt8 := [0x7f, 69, 76, 70]

/-- `memcmp` of the bytes at `s1` with the array `s2`, as far as the first that differs. -/
def memcmp (s1 : ℕ) : List UInt8 → Probe Int
  | [] => return 0
  | c :: s2 => do
    let b ← Probe.byte s1
    if b ≠ c then
      return if asSigned (b.toNat * 16777216) < asSigned (c.toNat * 16777216) then -1 else 1
    else memcmp (s1 + 1) s2

/-- `elf_valid_signature`. -/
def elfValidSignature (buffer : ℕ) : Probe Bool := do
  let res ← memcmp buffer elfSignature
  return res = 0

/-- `ELFCLASSNONE` or `ELFCLASS32`. -/
def elfValidClass (header : ℕ) : Probe Bool := do
  let c ← eClass header
  return c = 0 ∨ c = 1

/-- `ELFDATANONE` or `ELFDATA2LSB`. -/
def elfValidEncoding (header : ℕ) : Probe Bool := do
  let c ← eData header
  return c = 0 ∨ c = 1

/-- Nothing calls it. -/
def elfIsExecutable (header : ℕ) : Probe Bool := do
  let type ← eType header
  let entry ← eEntry header
  return type = etExec ∧ programVirtualAddress ≤ entry

/-- `elf_has_program_header`. -/
def elfHasProgramHeader (header : ℕ) : Probe Bool := do
  let off ← ePhoff header
  return off ≠ 0

/-- `elf_pheader`, null without program headers. -/
def elfPheader (header : ℕ) : Probe ℕ := do
  let off ← ePhoff header
  if off = 0 then return 0
  return (header + off) % 4294967296

/-- `elf_program_header`, number `index` of them. -/
def elfProgramHeader (header index : ℕ) : Probe ℕ := do
  let phdrs ← elfPheader header
  return (phdrs + phdrSize * index) % 4294967296

/-- `elf_phdr_phys_address` : the segment is used where the file was loaded. -/
def elfPhdrPhysAddress (file : ElfFile) (phdr : ℕ) : Probe ℕ := do
  let off ← pOffset phdr
  return (file.elfMemory + off) % 4294967296

/-- `elf_validate_loaded`. -/
def elfValidateLoaded (header : ℕ) : Probe Int := do
  if !(← elfValidSignature header) then return -EINFORMAT
  if !(← elfValidClass header) then return -EINFORMAT
  if !(← elfValidEncoding header) then return -EINFORMAT
  if !(← elfHasProgramHeader header) then return -EINFORMAT
  return 0

/-! ## The program headers -/

/-- `elf_process_phdr_pt_load`, which widens the bounds of the file. -/
def elfProcessPhdrPtLoad (file : ElfFile) (phdr : ℕ) : Probe ElfFile := do
  let vaddr ← pVaddr phdr
  let file ← (do
    if vaddr ≤ file.virtualBaseAddress ∨ file.virtualBaseAddress = 0 then
      let base ← elfPhdrPhysAddress file phdr
      return { file with virtualBaseAddress := vaddr, physicalBaseAddress := base }
    else return file)
  let filesz ← pFilesz phdr
  let endAddress := (vaddr + filesz) % 4294967296
  if file.virtualEndAddress ≤ endAddress ∨ file.virtualEndAddress = 0 then
    let base ← elfPhdrPhysAddress file phdr
    return { file with
      virtualEndAddress := endAddress, physicalEndAddress := (base + filesz) % 4294967296 }
  else return file

/-- The status is always 0. -/
def elfProcessPheader (file : ElfFile) (phdr : ℕ) : Probe ElfFile := do
  let type ← pType phdr
  if type = ptLoad then elfProcessPhdrPtLoad file phdr
  else return file

/-- The loop of `elf_process_pheaders`, `fuel` headers from number `i` on. -/
def elfProcessPheadersLoop (header : ℕ) : (fuel i : ℕ) → ElfFile → Probe ElfFile
  | 0, _, file => return file
  | fuel + 1, i, file => do
    let phdr ← elfProgramHeader header i
    let file ← elfProcessPheader file phdr
    elfProcessPheadersLoop header fuel (i + 1) file

/-- `elf_process_pheaders`. -/
def elfProcessPheaders (file : ElfFile) : Probe ElfFile := do
  let phnum ← ePhnum file.elfMemory
  elfProcessPheadersLoop file.elfMemory phnum 0 file

/-- The status and the file. -/
def elfProcessLoaded (file : ElfFile) : Probe (Int × ElfFile) := do
  let res ← elfValidateLoaded file.elfMemory
  if res < 0 then return (res, file)
  let file ← elfProcessPheaders file
  return (0, file)

/-! ## Loading -/

/-- History : the buffer that a file was loaded to and the addresses that the loader read
headers at. No function uses it. -/
structure ElfLook where
  buffer : ℕ
  size : ℕ
  reads : List ℕ

/-- What `elf_load` returns, and what it has looked at. -/
structure ElfLoaded where
  res : Int
  file : Option ElfFile
  look : Option ElfLook

/-- The first part of `elf_load` with `fd` open and the structure of the file at `self` : the
file read into a buffer, the buffer's address and size. -/
def elfRead (self : ℕ) (fd : Int) : KernelM (Except Int (ℕ × ℕ)) := do
  let (res, stat) ← fstat fd
  if res < 0 then return .error res
  -- the store to `elf_file->elf_memory`
  if self = 0 then fault
  let elfMemory ← kzalloc stat.filesize
  let res ← fread elfMemory stat.filesize 1 fd
  if res < 0 then return .error res
  if elfMemory = 0 then fault
  return .ok (elfMemory, stat.filesize)

/-- `elf_load` with the file open. -/
def elfLoadOpened (self : ℕ) (fd : Int) : KernelM ElfLoaded := do
  match ← elfRead self fd with
  | .error res => return ⟨res, none, none⟩
  | .ok (elfMemory, size) =>
    let k ← get
    let loaded := elfProcessLoaded ⟨self, elfMemory, 0, 0, 0, 0⟩
    let (res, file) := loaded.value k.mem
    let look : ElfLook := ⟨elfMemory, size, loaded.reads k.mem⟩
    if res < 0 then return ⟨res, none, some look⟩
    return ⟨res, some file, some look⟩

/-- Nothing that was allocated is freed when the load fails. -/
def elfLoad (filename : List UInt8) : KernelM ElfLoaded := do
  let self ← kzalloc 132
  let fd ← fopen filename [114]
  if fd ≤ 0 then
    let _ ← fclose 0
    return ⟨- EIO, none, none⟩
  let loaded ← elfLoadOpened self fd
  let _ ← fclose fd
  return loaded

/-- `elf_close`. -/
def elfClose (file : ElfFile) : KernelM Unit := do
  kfree file.elfMemory
  kfree file.self

end Hyperion
