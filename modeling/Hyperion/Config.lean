import Mathlib.Algebra.Order.Ring.Int
import Mathlib.Tactic.Ring

/-!
# Configuration and status codes

The constants of `config.h` and `status.h` that the modelled code uses.
-/

namespace Hyperion

/-- `HARDIKHYPERIONOS_HEAP_ADDRESS`. -/
abbrev heapAddress : Nat := 0x01000000

/-- `HARDIKHYPERIONOS_HEAP_SIZE_BYTES / HARDIKHYPERIONOS_HEAP_BLOCK_SIZE`. -/
abbrev heapTotalBlocks : Nat := 25600

/-- `HARDIKHYPERIONOS_SECTOR_SIZE`. -/
abbrev sectorSize : Nat := 512

/-- `HARDIKHYPERIONOS_MAX_PATH`. -/
abbrev maxPath : Nat := 108

/-- `HARDIKHYPERIONOS_MAX_PROGRAM_ALLOCATIONS`. -/
abbrev maxProgramAllocations : Nat := 1024

/-- `HARDIKHYPERIONOS_MAX_PROCESSES`. -/
abbrev maxProcesses : Nat := 12

/-- `HARDIKHYPERIONOS_MAX_FILE_DESCRIPTORS`. -/
abbrev maxFileDescriptors : Nat := 512

/-- `HARDIKHYPERIONOS_PROGRAM_VIRTUAL_ADDRESS` and `HARDIKHYPERION_OS_VIRTUAL_ADDRESS`. -/
abbrev programVirtualAddress : Nat := 0x400000

/-- `HARDIKHYPERIONOS_USER_PROGRAM_STACK_SIZE`. -/
abbrev userProgramStackSize : Nat := 1024 * 16

/-- `HARDIKHYPERIONOS_PROGRAM_VIRTUAL_STACK_ADDRESS_START`. -/
abbrev programVirtualStackAddressStart : Nat := 0x3FF000

/-- `HARDIKHYPERIONOS_PROGRAM_VIRTUAL_STACK_ADDRESS_END`. -/
abbrev programVirtualStackAddressEnd : Nat := 0x3FF000 - 1024 * 16

/-- `USER_DATA_SEGMENT`. -/
abbrev userDataSegment : Nat := 0x23

/-- `USER_CODE_SEGMENT`. -/
abbrev userCodeSegment : Nat := 0x1b

abbrev EIO : Int := 1
abbrev EINVARG : Int := 2
abbrev ENOMEM : Int := 3
abbrev EBADPATH : Int := 4
abbrev EFSNOTUS : Int := 5
abbrev ERDONLY : Int := 6
abbrev EUNIMP : Int := 7
abbrev EISTKN : Int := 8
abbrev EINFORMAT : Int := 9

end Hyperion
