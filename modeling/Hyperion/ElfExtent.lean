import Hyperion.ElfMap
import Hyperion.Lib.Extremum

/-!
# The extent of an ELF file

`elf_process_pheaders` walks over the program headers and keeps the lowest address and the highest
end of the segments to load, each with the place in the file that belongs to it, and with 0 for an
address that is not known yet. Whatever the order of the headers, these are the least and the
greatest (`elfProcessPheaders_extent`).

The loop is a fold over the headers (`elfProcessPheaders_value`). Each header makes two changes that
do not touch each other, one of the bases and one of the ends (`elfProcessPhdrPtLoad_eq`,
`foldl_process`), so that either is the search for a best element of a list, which the fold over
pairs of an address and a place is an instance of. For segments that are behind 0 and end in the
address space (`LoadsPlaced`) the 0 of the start is never taken for an address and the ends do not
wrap, and the best of each list is an extent (`LoadsPlaced.hasExtent_of_best`).

The order of the headers decides only between places of segments that start or end at the same
address. The addresses are the same for every order (`HasExtent.addresses_eq`).
-/

namespace Hyperion

open Extremum Probe

/-- The fields of a program header that the loader looks at. -/
structure ProgramHeader where
  type : ℕ
  offset : ℕ
  vaddr : ℕ
  filesz : ℕ
  deriving DecidableEq

/-- The program header at `phdr`. -/
def programHeaderAt (m : ℕ → UInt8) (phdr : ℕ) : ProgramHeader :=
  ⟨(pType phdr).value m, (pOffset phdr).value m, (pVaddr phdr).value m, (pFilesz phdr).value m⟩

/-- The program headers of a file, in their order. -/
def ElfFile.headers (file : ElfFile) (m : ℕ → UInt8) : List ProgramHeader :=
  (List.range (file.segments m)).map fun i => programHeaderAt m (file.phdr m i)

/-- The segments to load. -/
def loads (hs : List ProgramHeader) : List ProgramHeader := hs.filter (·.type = ptLoad)

namespace ProgramHeader

variable (h : ProgramHeader) (elfMemory : ℕ)

/-- The address of the segment, with its start in the file. -/
def start : ℕ × ℕ := (h.vaddr, (elfMemory + h.offset) % 4294967296)

/-- The end of the segment, with its end in the file. -/
def finish : ℕ × ℕ :=
  ((h.vaddr + h.filesz) % 4294967296, (elfMemory + h.offset + h.filesz) % 4294967296)

end ProgramHeader

/-- Other bases, virtual and physical. -/
def ElfFile.withBase (file : ElfFile) (base : ℕ × ℕ) : ElfFile :=
  { file with virtualBaseAddress := base.1, physicalBaseAddress := base.2 }

/-- Other ends. -/
def ElfFile.withEnd (file : ElfFile) (finish : ℕ × ℕ) : ElfFile :=
  { file with virtualEndAddress := finish.1, physicalEndAddress := finish.2 }

namespace ElfFile

variable (file : ElfFile) (p q p' q' : ℕ × ℕ)

/-- The file stays where it is. -/
theorem withBase_elfMemory : (file.withBase p).elfMemory = file.elfMemory := rfl

theorem withBase_virtualEndAddress :
    (file.withBase p).virtualEndAddress = file.virtualEndAddress := rfl

theorem withBase_physicalEndAddress :
    (file.withBase p).physicalEndAddress = file.physicalEndAddress := rfl

theorem withEnd_elfMemory : ((file.withBase p).withEnd q).elfMemory = file.elfMemory := rfl

theorem withEnd_base : (((file.withBase p).withEnd q).virtualBaseAddress,
    ((file.withBase p).withEnd q).physicalBaseAddress) = p := rfl

theorem withEnd_end : (((file.withBase p).withEnd q).virtualEndAddress,
    ((file.withBase p).withEnd q).physicalEndAddress) = q := rfl

theorem withEnd_again : (((file.withBase p).withEnd q).withBase p').withEnd q' =
    (file.withBase p').withEnd q' := rfl

end ElfFile

/-- The file before its program headers are looked at. -/
def ElfFile.opened (self elfMemory : ℕ) : ElfFile := ⟨self, elfMemory, 0, 0, 0, 0⟩

/-- What one program header makes of the file. -/
def ElfFile.process (file : ElfFile) (h : ProgramHeader) : ElfFile :=
  if h.type = ptLoad then
    (file.withBase (keep (· ≤ ·) 0 (file.virtualBaseAddress, file.physicalBaseAddress)
      (h.start file.elfMemory))).withEnd
    (keep (· ≥ ·) 0 (file.virtualEndAddress, file.physicalEndAddress) (h.finish file.elfMemory))
  else file

section Fold

variable {m m' : ℕ → UInt8} {file file' : ElfFile} {phdr header vaddr : ℕ}

/-! ## One header -/

/-- The first `if` of `elf_process_phdr_pt_load`. -/
def elfExtendBase (file : ElfFile) (phdr vaddr : ℕ) : Probe ElfFile :=
  if vaddr ≤ file.virtualBaseAddress ∨ file.virtualBaseAddress = 0 then do
    let base ← elfPhdrPhysAddress file phdr
    return { file with virtualBaseAddress := vaddr, physicalBaseAddress := base }
  else return file

/-- The second one. -/
def elfExtendEnd (file : ElfFile) (phdr endAddress filesz : ℕ) : Probe ElfFile :=
  if file.virtualEndAddress ≤ endAddress ∨ file.virtualEndAddress = 0 then do
    let base ← elfPhdrPhysAddress file phdr
    return { file with
      virtualEndAddress := endAddress, physicalEndAddress := (base + filesz) % 4294967296 }
  else return file

/-- A segment may move the base and may move the end. -/
theorem elfProcessPhdrPtLoad_eq : elfProcessPhdrPtLoad file phdr = (do
    let vaddr ← pVaddr phdr
    let file ← elfExtendBase file phdr vaddr
    let filesz ← pFilesz phdr
    elfExtendEnd file phdr ((vaddr + filesz) % 4294967296) filesz) := rfl

/-- The base moves to a lower address, or from 0. -/
theorem elfExtendBase_value : (elfExtendBase file phdr vaddr).value m = file.withBase
    (keep (· ≤ ·) 0 (file.virtualBaseAddress, file.physicalBaseAddress)
      (vaddr, (elfPhdrPhysAddress file phdr).value m)) := by
  rw [elfExtendBase, value_ite, value_bind, value_pure, value_pure]
  by_cases h : vaddr ≤ file.virtualBaseAddress ∨ file.virtualBaseAddress = 0
  · rw [if_pos h, keep, if_pos h]
    rfl
  · rw [if_neg h, keep, if_neg h]
    rfl

/-- The end moves to a higher address, or from 0. -/
theorem elfExtendEnd_value {endAddress filesz : ℕ} :
    (elfExtendEnd file phdr endAddress filesz).value m = file.withEnd
      (keep (· ≥ ·) 0 (file.virtualEndAddress, file.physicalEndAddress)
        (endAddress, ((elfPhdrPhysAddress file phdr).value m + filesz) % 4294967296)) := by
  rw [elfExtendEnd, value_ite, value_bind, value_pure, value_pure]
  by_cases h : file.virtualEndAddress ≤ endAddress ∨ file.virtualEndAddress = 0
  · rw [if_pos h, keep, if_pos h]
    rfl
  · rw [if_neg h, keep, if_neg h]
    rfl

/-- The physical address is counted from the file. -/
theorem elfPhdrPhysAddress_value : (elfPhdrPhysAddress file phdr).value m =
    (file.elfMemory + (programHeaderAt m phdr).offset) % 4294967296 := by
  rw [elfPhdrPhysAddress, value_bind, value_pure, programHeaderAt]

/-- Only headers of type `PT_LOAD` count. -/
theorem elfProcessPheader_value : (elfProcessPheader file phdr).value m =
    file.process (programHeaderAt m phdr) := by
  have htype : (programHeaderAt m phdr).type = (pType phdr).value m := rfl
  have hvaddr : (programHeaderAt m phdr).vaddr = (pVaddr phdr).value m := rfl
  have hfilesz : (programHeaderAt m phdr).filesz = (pFilesz phdr).value m := rfl
  rw [elfProcessPheader, value_bind, value_ite, ElfFile.process, htype]
  by_cases hload : (pType phdr).value m = ptLoad
  · rw [if_pos hload, if_pos hload, elfProcessPhdrPtLoad_eq, value_bind, value_bind, value_bind,
      elfExtendBase_value, elfExtendEnd_value, elfPhdrPhysAddress_value, elfPhdrPhysAddress_value,
      Nat.mod_add_mod, ProgramHeader.start, ProgramHeader.finish, hvaddr, hfilesz,
      ElfFile.withBase_elfMemory, ElfFile.withBase_virtualEndAddress,
      ElfFile.withBase_physicalEndAddress]
  · rw [if_neg hload, if_neg hload, value_pure]

/-- None of them moves the file. -/
theorem ElfFile.process_elfMemory (h : ProgramHeader) :
    (file.process h).elfMemory = file.elfMemory := by
  unfold process
  split_ifs
  · exact withEnd_elfMemory _ _ _
  · rfl

/-! ## All headers -/

/-- The headers are processed in order, by recursion on those that are left. -/
theorem elfProcessPheadersLoop_value : ∀ {fuel i : ℕ} {file : ElfFile},
    (elfProcessPheadersLoop header fuel i file).value m =
      ((List.range' i fuel).map fun i =>
        programHeaderAt m ((elfProgramHeader header i).value m)).foldl ElfFile.process file
  | 0, _, _ => rfl
  | fuel + 1, i, file => by
    rw [elfProcessPheadersLoop, value_bind, value_bind, elfProcessPheader_value,
      elfProcessPheadersLoop_value, List.range'_succ, List.map_cons, List.foldl_cons]

/-- So all of them are a fold. -/
theorem elfProcessPheaders_value :
    (elfProcessPheaders file).value m = (file.headers m).foldl ElfFile.process file := by
  have hphdr (i : ℕ) : (elfProgramHeader file.elfMemory i).value m = file.phdr m i := by
    rw [elfProgramHeader, value_bind, value_pure, ElfFile.phdr]
  rw [elfProcessPheaders, value_bind, elfProcessPheadersLoop_value, ElfFile.headers,
    List.range_eq_range', ElfFile.segments]
  simp only [hphdr]

/-- The two pairs are kept independently of each other. -/
theorem foldl_process : ∀ {hs : List ProgramHeader} {file : ElfFile},
    hs.foldl ElfFile.process file =
      (file.withBase (((loads hs).map (·.start file.elfMemory)).foldl (keep (· ≤ ·) 0)
        (file.virtualBaseAddress, file.physicalBaseAddress))).withEnd
      (((loads hs).map (·.finish file.elfMemory)).foldl (keep (· ≥ ·) 0)
        (file.virtualEndAddress, file.physicalEndAddress))
  | [], _ => rfl
  | h :: hs, file => by
    rw [List.foldl_cons, foldl_process, ElfFile.process_elfMemory]
    by_cases hload : h.type = ptLoad
    · have hloads : loads (h :: hs) = h :: loads hs :=
        List.filter_cons_of_pos (by simpa using hload)
      rw [hloads, List.map_cons, List.map_cons, List.foldl_cons, List.foldl_cons, ElfFile.process,
        if_pos hload, ElfFile.withEnd_base, ElfFile.withEnd_end, ElfFile.withEnd_again]
    · have hloads : loads (h :: hs) = loads hs := List.filter_cons_of_neg (by simpa using hload)
      rw [hloads, ElfFile.process, if_neg hload]

/-! ## The extent -/

/-- The least address and the greatest end of the segments to load, with the places in the file of
segments that have them. -/
structure HasExtent (hs : List ProgramHeader) (elfMemory : ℕ) (file : ElfFile) : Prop where
  base : ∃ h ∈ loads hs, file.virtualBaseAddress = h.vaddr ∧
    file.physicalBaseAddress = (elfMemory + h.offset) % 4294967296 ∧
    ∀ h' ∈ loads hs, h.vaddr ≤ h'.vaddr
  finish : ∃ h ∈ loads hs, file.virtualEndAddress = h.vaddr + h.filesz ∧
    file.physicalEndAddress = (elfMemory + h.offset + h.filesz) % 4294967296 ∧
    ∀ h' ∈ loads hs, h'.vaddr + h'.filesz ≤ h.vaddr + h.filesz

/-- There is a segment to load, and those are behind 0 and end in the address space. -/
structure LoadsPlaced (hs : List ProgramHeader) : Prop where
  ne_nil : loads hs ≠ []
  pos : ∀ h ∈ loads hs, 0 < h.vaddr
  lt : ∀ h ∈ loads hs, h.vaddr + h.filesz < 4294967296

/-- The lowest start wins, and brings its physical address. -/
theorem LoadsPlaced.best_start {hs : List ProgramHeader} (h : LoadsPlaced hs)
    (elfMemory place : ℕ) : Best (· ≤ ·) ((loads hs).map (·.start elfMemory))
      (((loads hs).map (·.start elfMemory)).foldl (keep (· ≤ ·) 0) (0, place)) := by
  refine best_foldl Nat.le_total Nat.le_trans rfl ?_ fun x hx => ?_
  · exact fun hnil => h.ne_nil (List.map_eq_nil_iff.mp hnil)
  · obtain ⟨y, hy, rfl⟩ := List.mem_map.mp hx
    exact (h.pos y hy).ne'

/-- Ends do not wrap. -/
theorem LoadsPlaced.finish_fst {hs : List ProgramHeader} (h : LoadsPlaced hs) {x : ProgramHeader}
    (hx : x ∈ loads hs) (elfMemory : ℕ) : (x.finish elfMemory).1 = x.vaddr + x.filesz :=
  Nat.mod_eq_of_lt (h.lt x hx)

/-- The highest end wins. -/
theorem LoadsPlaced.best_finish {hs : List ProgramHeader} (h : LoadsPlaced hs)
    (elfMemory place : ℕ) : Best (· ≥ ·) ((loads hs).map (·.finish elfMemory))
      (((loads hs).map (·.finish elfMemory)).foldl (keep (· ≥ ·) 0) (0, place)) := by
  refine best_foldl (fun x y => Nat.le_total y x) (fun h h' => Nat.le_trans h' h) rfl ?_
    fun x hx => ?_
  · exact fun hnil => h.ne_nil (List.map_eq_nil_iff.mp hnil)
  · obtain ⟨y, hy, rfl⟩ := List.mem_map.mp hx
    have hpos := h.pos y hy
    rw [h.finish_fst hy]
    omega

/-- The best of each list is an extent. -/
theorem LoadsPlaced.hasExtent_of_best {hs : List ProgramHeader} (h : LoadsPlaced hs) {elfMemory : ℕ}
    {base finish : ℕ × ℕ} (hbase : Best (· ≤ ·) ((loads hs).map (·.start elfMemory)) base)
    (hfinish : Best (· ≥ ·) ((loads hs).map (·.finish elfMemory)) finish) :
    HasExtent hs elfMemory ((file.withBase base).withEnd finish) where
  base := by
    obtain ⟨x, hx, hstart⟩ := List.mem_map.mp hbase.mem
    rw [ProgramHeader.start] at hstart
    subst hstart
    exact ⟨x, hx, rfl, rfl, fun y hy => hbase.best _ (List.mem_map_of_mem hy)⟩
  finish := by
    obtain ⟨x, hx, hend⟩ := List.mem_map.mp hfinish.mem
    rw [ProgramHeader.finish, Nat.mod_eq_of_lt (h.lt x hx)] at hend
    subst hend
    refine ⟨x, hx, rfl, rfl, fun y hy => ?_⟩
    have hle := hfinish.best _ (List.mem_map_of_mem hy)
    rwa [h.finish_fst hy] at hle

/-- What the loop keeps is the least and the greatest. -/
theorem LoadsPlaced.hasExtent {hs : List ProgramHeader} (h : LoadsPlaced hs) {elfMemory self : ℕ} :
    HasExtent hs elfMemory (hs.foldl ElfFile.process (.opened self elfMemory)) := by
  rw [foldl_process]
  exact h.hasExtent_of_best (h.best_start elfMemory 0) (h.best_finish elfMemory 0)

/-- The segments of the headers in another order. -/
theorem loads_perm {hs hs' : List ProgramHeader} (hp : hs.Perm hs') :
    (loads hs).Perm (loads hs') := hp.filter _

/-- They are placed as well. -/
theorem LoadsPlaced.perm {hs hs' : List ProgramHeader} (h : LoadsPlaced hs) (hp : hs.Perm hs') :
    LoadsPlaced hs' where
  ne_nil hnil := h.ne_nil ((hnil ▸ loads_perm hp).eq_nil)
  pos x hx := h.pos x ((loads_perm hp).mem_iff.mpr hx)
  lt x hx := h.lt x ((loads_perm hp).mem_iff.mpr hx)

/-- The order of the headers does not matter for the addresses. -/
theorem HasExtent.addresses_eq {hs hs' : List ProgramHeader} {elfMemory elfMemory' : ℕ}
    (h : HasExtent hs elfMemory file) (h' : HasExtent hs' elfMemory' file') (hp : hs.Perm hs') :
    file.virtualBaseAddress = file'.virtualBaseAddress ∧
      file.virtualEndAddress = file'.virtualEndAddress := by
  have hmem (x : ProgramHeader) : x ∈ loads hs ↔ x ∈ loads hs' := (loads_perm hp).mem_iff
  obtain ⟨x, hx, hbase, -, hleast⟩ := h.base
  obtain ⟨x', hx', hbase', -, hleast'⟩ := h'.base
  obtain ⟨y, hy, hend, -, hgreatest⟩ := h.finish
  obtain ⟨y', hy', hend', -, hgreatest'⟩ := h'.finish
  rw [hbase, hbase', hend, hend']
  exact ⟨Nat.le_antisymm (hleast x' ((hmem x').mpr hx')) (hleast' x ((hmem x).mp hx)),
    Nat.le_antisymm (hgreatest' y ((hmem y).mp hy)) (hgreatest y' ((hmem y').mpr hy'))⟩

end Fold

/-- After the program headers the extent is known, and the two addresses are the same for every
other order of the headers. -/
theorem elfProcessPheaders_extent {m : ℕ → UInt8} {self elfMemory : ℕ}
    (h : LoadsPlaced ((ElfFile.opened self elfMemory).headers m)) :
    HasExtent ((ElfFile.opened self elfMemory).headers m) elfMemory
      ((elfProcessPheaders (.opened self elfMemory)).value m) ∧
    ∀ m' self' elfMemory',
      ((ElfFile.opened self' elfMemory').headers m').Perm
        ((ElfFile.opened self elfMemory).headers m) →
      ((elfProcessPheaders (.opened self' elfMemory')).value m').virtualBaseAddress =
        ((elfProcessPheaders (.opened self elfMemory)).value m).virtualBaseAddress ∧
      ((elfProcessPheaders (.opened self' elfMemory')).value m').virtualEndAddress =
        ((elfProcessPheaders (.opened self elfMemory)).value m).virtualEndAddress := by
  rw [elfProcessPheaders_value]
  refine ⟨h.hasExtent, fun m' self' elfMemory' hp => ?_⟩
  rw [elfProcessPheaders_value]
  exact (h.perm hp.symm).hasExtent.addresses_eq h.hasExtent hp

/-- The file with two segments. -/
theorem elfProcessPheaders_extent_two :
    HasExtent ((ElfFile.opened 0x300000 0x200000).headers twoSegmentsMem) 0x200000
      ((elfProcessPheaders (.opened 0x300000 0x200000)).value twoSegmentsMem) ∧
    ∀ m' self' elfMemory',
      ((ElfFile.opened self' elfMemory').headers m').Perm
        ((ElfFile.opened 0x300000 0x200000).headers twoSegmentsMem) →
      ((elfProcessPheaders (.opened self' elfMemory')).value m').virtualBaseAddress =
        ((elfProcessPheaders (.opened 0x300000 0x200000)).value twoSegmentsMem).virtualBaseAddress ∧
      ((elfProcessPheaders (.opened self' elfMemory')).value m').virtualEndAddress =
        ((elfProcessPheaders (.opened 0x300000 0x200000)).value
          twoSegmentsMem).virtualEndAddress := by
  have hloads : loads ((ElfFile.opened 0x300000 0x200000).headers twoSegmentsMem) =
      [⟨ptLoad, 0x10, 0x400010, 0x1800⟩, ⟨ptLoad, 0x2020, 0x403020, 0x20⟩] := by
    decide +kernel
  refine elfProcessPheaders_extent ⟨?_, ?_, ?_⟩ <;> rw [hloads] <;> simp

end Hyperion
