import Hyperion.Mount
import Hyperion.TableStages

/-!
# The kernel when it starts

What `kernel_main` leaves of the heap before the first program is loaded. Mounting a volume takes
four blocks and those of the root directory, and one between them is free again
(`fat16Resolve_blocks`). The directory of the kernel's space goes to that one, and its tables and
its chunk to the blocks behind. From then on no block below 1031 is free and all others are
(`kernelStart_stage`).

The volume is one with three programs, in clusters as large as those of the boot sector that
comes with the kernel, so that each is in one. What the mount makes of its boot sector and of its
root directory is found out by running it (`programKernel_view`). That the programs can be loaded
from there by their paths (`ProgramsMounted.programAt`) follows from the entries and the header of
each file.
-/

namespace Hyperion

open Partial FreeRun

variable {k : Kernel} {M i n : ℕ} {fp : FatPrivate} {dir : FatDirectory} {name : List UInt8}

/-! ## Mounting -/

/-- With the whole heap free, a volume that is accepted takes five blocks and those of its root
directory, of which the fifth is free again. -/
theorem fat16Resolve_blocks (h : k.FreeBelow M fun _ => True) (hM : 10 ≤ M)
    (hroot : 1 ≤ (bootHeader k.image).rootDirEntries)
    (hroot' : (bootHeader k.image).rootDirEntries ≤ 128) :
    Meets False fat16Resolve k fun res k' => res = 0 →
      k'.FreeBelow M fun i => i = 4 ∨ 6 ≤ i := by
  have h₀ : k.Row M (fun _ => True) 0 0 M :=
    ⟨h.congr fun i _ => ⟨fun h => ⟨h, by omega⟩, fun h => h.1⟩, le_rfl, fun i hi => by omega,
      fun _ _ _ => trivial, le_rfl⟩
  obtain ⟨k₁, e₁, h₁, g₁, -, -⟩ := h₀.takes 92 1 (by decide) rfl (by omega)
  obtain ⟨k₂, e₂, h₂, g₂, -, -⟩ := h₁.takes 8 2 (by decide) rfl (by omega)
  obtain ⟨k₃, e₃, h₃, g₃, -, -⟩ := h₂.takes 8 3 (by decide) rfl (by omega)
  obtain ⟨k₄, e₄, h₄, g₄, -, -⟩ := h₃.takes 8 4 (by decide) rfl (by omega)
  obtain ⟨k₅, e₅, h₅, g₅, o₅, -⟩ := h₄.takes 8 5 (by decide) rfl (by omega)
  have hsize : 1 ≤ (bootHeader k.image).rootDirEntries * directoryItemSize ∧
      5 + blocksFor ((bootHeader k.image).rootDirEntries * directoryItemSize) = 6 := by
    unfold blocksFor directoryItemSize
    omega
  obtain ⟨k₆, e₆, h₆, -, -, f₆⟩ := h₅.takes _ 6 hsize.1 hsize.2 (by omega)
  have hstream {k k' : Kernel} {b : ℕ} (e : kzalloc 8 k = some (blockAddr b, k')) :
      diskstreamerNew k = some (blockAddr b, k') := by
    simp only [diskstreamerNew, run_bind, e, Option.bind_some, if_neg (blockAddr_pos b), run_pure]
  have himage : k₅.image = k.image := Kernel.image_of_globals (by rw [g₅, g₄, g₃, g₂, g₁])
  have hboot : diskstreamerRead k₅.image ⟨0⟩ 62 =
      some (diskBytes k.image 0 62, ⟨(0 + 62 : ℕ)⟩) := by
    rw [himage]
    exact diskstreamerRead_eq k.image (by decide)
  have hdir : Meets False (fat16GetRootDirectory (bootHeader k.image)) k₅ fun _ k' => k' = k₆ := by
    simp only [fat16GetRootDirectory, Meets.bind_iff, Meets.get_iff, defined_iff]
    refine ⟨fun _ _ => .of_run_eq e₆ ?_, fun _ => not_false⟩
    simp only [Meets.ite_iff, Meets.bind_iff, defined_iff, Meets.pure_iff, implies_true,
      not_false_eq_true, and_self]
  rw [fat16Resolve, Meets.bind_iff]
  refine .of_run_eq e₁ ?_
  rw [if_neg (blockAddr_pos 0), Meets.bind_iff]
  refine .of_run_eq (hstream e₂) ?_
  rw [Meets.bind_iff]
  refine .of_run_eq (hstream e₃) ?_
  rw [Meets.bind_iff]
  refine .of_run_eq (hstream e₄) ?_
  rw [Meets.bind_iff]
  refine .of_run_eq (hstream e₅) ?_
  simp only [Meets.bind_iff, Meets.get_iff, defined_iff, hboot, Option.some.injEq, forall_eq',
    reduceCtorEq, false_imp_iff, and_true, kfree_iff, Meets.modify_iff, Meets.ite_iff,
    Meets.pure_iff]
  refine ⟨fun _ => ⟨fun _ h => absurd h (by decide), fun _ h => absurd h (by decide)⟩, fun _ => ?_⟩
  refine hdir.mono fun r t ht => ?_
  subst ht
  have hfree := (h₆.free.release (f₆ _ _ o₅)).congr (T := fun i => i = 4 ∨ 6 ≤ i) fun i _ => by
    simp only [true_and, show blocksFor 8 = 1 by decide]
    omega
  cases r.2 with
  | none =>
    exact Meets.pure_iff.mpr ⟨fun _ h => absurd h (by decide), fun _ h => absurd h (by decide)⟩
  | some dir =>
    simp only [Meets.bind_iff, Meets.modify_iff, Meets.pure_iff]
    refine ⟨fun hneg h0 => absurd hneg (by omega), fun _ _ => hfree.of_heapTable ?_⟩
    rfl

/-! ## Three programs -/

/-- The entry of the program of the name `c`, of `size` bytes from cluster `cluster` on. -/
def programEntry (c cluster : UInt8) (size : ℕ) : List UInt8 :=
  (((fileEntry c).set 26 cluster).set 28 (UInt8.ofNat size)).set 29 (UInt8.ofNat (size / 256))

/-- The name, the first cluster and the size of three programs, of seven blocks, eight and one. -/
def programList : List (UInt8 × UInt8 × ℕ) := [(65, 2, 28672), (66, 3, 32768), (67, 4, 85)]

/-- The volume of the boot sector, with the programs `A`, `B` and `C` of seven blocks, of eight
and of 85 bytes. Each has one segment and is in one cluster. -/
def programVolume : DiskImage := fun lba j =>
  if lba = 0 then
    if j = 12 then 2 else if j = 13 then 0x80 else if j = 14 then 200 else if j = 16 then 2
    else if j = 17 then 0x40 else if j = 21 then 0xF8 else if j = 23 then 1
    else if j = 36 then 0x80 else if j = 38 then 0x29 else 0
  else if lba = 200 ∨ lba = 456 then (0xF8 :: List.replicate 9 0xFF).getD j 0
  else if lba = 712 then
    (programList.flatMap fun c => programEntry c.1 c.2.1 c.2.2).getD j 0
  else if lba = 716 ∨ lba = 844 ∨ lba = 972 then (oneSegment 84 0).getD j 0
  else 0

/-- The state before anything is done with that disk. -/
def programKernel : Kernel := { Kernel.empty with image := programVolume }

/-- What `kernel_main` does with the heap before it loads the first program : the disk is mounted
and the kernel gets its space. -/
def kernelStart : KernelM Unit := do
  diskSearchAndInit
  let kernelChunk ← pagingNew4gb (pagingIsWriteable ||| pagingIsPresent ||| pagingAccessFromAll)
  modify fun k => { k with kernelChunk := kernelChunk }
  pagingSwitch kernelChunk

/-- What is decided about the state in which the volume is mounted. -/
structure MountView where
  filesystem : Bool
  header : Option FatHeader
  total : Option Int
  entries : Option (List (List UInt8))
  names : Option (List (Option (List UInt8)))
  guard : UInt8
  taskHead : ℕ
  currentProcess : ℕ
  idle : Bool
  closed : Bool
  deriving DecidableEq

/-- These are read off it. -/
def mountView (k : Kernel) : MountView where
  filesystem := k.disk.filesystem
  header := k.disk.fsPrivate.map FatPrivate.header
  total := k.disk.fsPrivate.map fun p => p.rootDirectory.total
  entries := k.disk.fsPrivate.map fun p =>
    (List.range 3).map fun i => (p.rootDirectory.from i).take directoryItemSize
  names := k.disk.fsPrivate.map fun p =>
    (List.range 3).map fun i => fat16GetFullRelativeFilename (p.rootDirectory.from i)
  guard := k.heapTable (-1)
  taskHead := k.taskHead
  currentProcess := k.currentProcess
  idle := (List.range maxProcesses).all fun i => k.processes i == 0
  closed := (k.fileDescriptors 0).isNone

/-- What comes of mounting the volume. -/
theorem programKernel_view : (diskSearchAndInit programKernel).map (fun x => mountView x.2) = some
    ⟨true, some ⟨0x80, 200, 2, 0x40, 256, 0x29⟩, some 3,
      some (programList.map fun c => programEntry c.1 c.2.1 c.2.2),
      some (programList.map fun c => some [c.1]), 0, 0, 0, true, true⟩ := by
  decide +kernel

/-- Its boot sector. -/
theorem programVolume_header : bootHeader programVolume = ⟨0x80, 200, 2, 0x40, 256, 0x29⟩ := by
  decide +kernel

/-- The search in a directory without the name from entry `j` on. -/
theorem fat16FindItemLoop_skip {item : Option FatItem} : ∀ (fuel j : ℕ),
    (∀ i, j ≤ i → i < j + fuel → ∃ s, fat16GetFullRelativeFilename (dir.from i) = some s ∧
      istrncmp s name maxPath ≠ 0) → fat16FindItemLoop dir name fuel j item k = some (item, k)
  | 0, _, _ => rfl
  | fuel + 1, j, h => by
    obtain ⟨s, hs, hne⟩ := h j le_rfl (by omega)
    simp only [fat16FindItemLoop, hs, defined, run_bind, run_pure, Option.bind_some, if_neg hne]
    exact fat16FindItemLoop_skip fuel (j + 1) fun i hi hi' => h i (by omega) (by omega)

/-- The search in a directory where entry `i` alone has the name. -/
theorem fat16FindItemLoop_single {item : Option FatItem} : ∀ (fuel j : ℕ),
    (∀ i', j ≤ i' → i' < j + fuel → ∃ s, fat16GetFullRelativeFilename (dir.from i') = some s ∧
      (istrncmp s name maxPath = 0 ↔ i' = i)) → j ≤ i → i < j + fuel →
    fat16FindItemLoop dir name fuel j item k =
      fat16NewFatItemForDirectoryItem ((dir.from i).take directoryItemSize) k
  | 0, _, _, _, _ => by omega
  | fuel + 1, j, h, hj, hi => by
    obtain ⟨s, hs, hone⟩ := h j le_rfl (by omega)
    simp only [fat16FindItemLoop, hs, defined, run_bind, run_pure, Option.bind_some]
    split_ifs with h0
    · obtain rfl := hone.mp h0
      rw [run_bind]
      have hskip (item : Option FatItem) (k : Kernel) :
          fat16FindItemLoop dir name fuel (j + 1) item k = some (item, k) :=
        fat16FindItemLoop_skip fuel (j + 1) fun i' hi' hi'' => by
          obtain ⟨s, hs, hone⟩ := h i' (by omega) (by omega)
          exact ⟨s, hs, fun h => by have := hone.mp h; omega⟩
      cases fat16NewFatItemForDirectoryItem ((dir.from j).take directoryItemSize) k with
      | none => rfl
      | some x => exact hskip x.1 x.2
    · have hne : j ≠ i := fun he => h0 (hone.mpr he)
      exact fat16FindItemLoop_single fuel (j + 1) (fun i' hi' hi'' => h i' (by omega) (by omega))
        (by omega) (by omega)

/-- The file system of the volume. -/
structure ProgramsMounted (fp : FatPrivate) : Prop where
  header : fp.header = ⟨0x80, 200, 2, 0x40, 256, 0x29⟩
  ending : fp.rootDirectory.endingSectorPos = 716
  total : fp.rootDirectory.total = 3
  entry : ∀ i (hi : i < programList.length), (fp.rootDirectory.from i).take directoryItemSize =
    programEntry programList[i].1 programList[i].2.1 programList[i].2.2
  name : ∀ i (hi : i < programList.length),
    fat16GetFullRelativeFilename (fp.rootDirectory.from i) = some [programList[i].1]

/-- The programs have different names. -/
theorem programList_istrncmp : ∀ i (_ : i < programList.length) j (_ : j < programList.length),
    istrncmp [programList[j].1] [programList[i].1] maxPath = 0 ↔ j = i := by
  decide

/-- What is in the entries. -/
theorem programList_entry : ∀ c ∈ programList,
    itemFilesize (programEntry c.1 c.2.1 c.2.2) = c.2.2 ∧
      fat16GetFirstCluster (programEntry c.1 c.2.1 c.2.2) = c.2.1.toNat ∧
      itemIsSubdirectory (programEntry c.1 c.2.1 c.2.2) = false ∧ 85 ≤ c.2.2 ∧ c.2.2 ≤ 65536 ∧
      pathparserGetDriveByPath [48, 58, 47, c.1] = .ok (0, [c.1]) ∧ c.1 ≠ 47 := by
  decide

/-- The position of the file in the volume. -/
def programPos (c : UInt8 × UInt8 × ℕ) : Int := (716 + ((c.2.1.toNat : Int) - 2) * 0x80) * 512

/-- The file of each begins with the header of a program. -/
theorem programList_header : ∀ c ∈ programList, 0 ≤ wrapInt (programPos c) ∧ ∀ j : ℕ, j < 85 →
    byteAt programVolume (wrapInt (wrapInt (programPos c) + (j : ℕ))) =
      (oneSegment 84 0).getD j 0 := by
  decide +kernel

/-- Each of the programs can be loaded. -/
theorem ProgramsMounted.programAt (h : ProgramsMounted fp) (hi : i < programList.length) :
    ProgramAt programVolume fp [48, 58, 47, programList[i].1] programList[i].1
      (programEntry programList[i].1 programList[i].2.1 programList[i].2.2) := by
  have hmem : programList[i] ∈ programList := List.getElem_mem _
  obtain ⟨hsize, hfirst, hplain, hlo, hhi, hdrive, hname⟩ := programList_entry _ hmem
  obtain ⟨hpos, hheader⟩ := programList_header _ hmem
  have hcluster : clusterSize fp = 65536 := by
    rw [clusterSize, h.header]
    rfl
  have hstart : startPos fp (fat16GetFirstCluster
      (programEntry programList[i].1 programList[i].2.1 programList[i].2.2)) 0 =
        wrapInt (programPos programList[i]) := by
    rw [startPos, dataPos, h.ending, h.header, hfirst, Int.zero_tmod, add_zero]
    rfl
  refine ⟨⟨fun k => ?_, hplain⟩, ⟨by omega, by omega, by omega, ?_, fun j hj => ?_⟩,
    show 4 ≤ maxPath by decide, hdrive,
    hname⟩
  · have hlen (j : ℕ) (hj : j < 0 + 3) : j < programList.length :=
      show j < 3 by omega
    rw [fat16FindItemInDirectory, h.total, show (3 : Int).toNat = 3 from rfl,
      fat16FindItemLoop_single (i := i) 3 0 (fun j _ hj => ⟨_, h.name j (hlen j hj),
        programList_istrncmp i hi j (hlen j hj)⟩) (Nat.zero_le i) hi, h.entry i hi]
  · rw [hstart]
    exact .inl hpos
  · rw [clusterBytes, hstart, hsize, bytesAt, List.getD_eq_getElem?_getD, List.getElem?_map,
      List.getElem?_range (by omega), Option.map_some, Option.getD_some, hheader j hj,
      List.getD_eq_getElem?_getD]

/-- Their files take seven blocks, eight and one. -/
theorem ProgramsMounted.programOf (h : ProgramsMounted fp) :
    ProgramOf programVolume fp [48, 58, 47, 65] 7 ∧
      ProgramOf programVolume fp [48, 58, 47, 66] 8 ∧
      ProgramOf programVolume fp [48, 58, 47, 67] 1 :=
  ⟨⟨_, _, h.programAt (show 0 < 3 by decide), by decide⟩,
    ⟨_, _, h.programAt (show 1 < 3 by decide), by decide⟩,
    ⟨_, _, h.programAt (show 2 < 3 by decide), by decide⟩⟩

/-- The volume is mounted. -/
theorem programKernel_mounts : ∃ k fp, diskSearchAndInit programKernel = some ((), k) ∧
    Guarded k.table ∧ k.FreeBelow heapTotalBlocks (fun i => i = 4 ∨ 6 ≤ i) ∧
    k.Mounted programVolume fp ∧ ProgramsMounted fp ∧ k.taskHead = 0 ∧ k.currentProcess = 0 ∧
    ∀ i < maxProcesses, k.processes i = 0 := by
  obtain ⟨⟨⟨⟩, k⟩, hrun, hview⟩ := Option.map_eq_some_iff.mp programKernel_view
  have hsearch := hrun
  rw [diskSearchAndInit, run_bind] at hsearch
  obtain ⟨⟨res, k₀⟩, hresolve, hrest⟩ := Option.bind_eq_some_iff.mp hsearch
  simp only [mountView, MountView.mk.injEq] at hview
  obtain ⟨hfs, hheader, htotal, hentries, hnames, hguard, hhead, hcur, hidle, hclosed⟩ := hview
  by_cases h0 : res = 0
  · subst h0
    rw [if_neg (not_not.mpr rfl)] at hrest
    obtain rfl : k₀ = k := by
      cases hrest
      rfl
    obtain ⟨himage, dir, hdir, hroot⟩ := fat16Resolve_mounts.of_eq hresolve rfl
    have hb : bootHeader programKernel.image = ⟨0x80, 200, 2, 0x40, 256, 0x29⟩ :=
      programVolume_header
    have hfree := (fat16Resolve_blocks (M := heapTotalBlocks) (k := programKernel)
      ⟨le_rfl, fun i _ => iff_of_true rfl trivial⟩ (by decide) (by rw [hb]; decide)
      (by rw [hb]; decide)).of_eq hresolve rfl
    rw [hdir] at hheader htotal hentries hnames
    simp only [Option.map_some, Option.some.injEq] at hheader htotal hentries hnames
    refine ⟨k₀, _, hrun, ⟨-1, by decide, by decide, ?_⟩, hfree, ⟨hfs, hdir, himage, ?_⟩,
      ⟨hheader, ?_, htotal, fun i hi => ?_, fun i hi => ?_⟩, hhead, hcur, fun i hi => ?_⟩
    · show k₀.heapTable (-1) &&& blockHasNext = 0
      rw [hguard]
      rfl
    · exact Option.isNone_iff_eq_none.mp hclosed
    · rw [hroot.ending, hb]
      rfl
    · have hi' := congrArg (fun l => l[i]?) hentries
      simpa only [List.getElem?_map, List.getElem?_range (show i < 3 from hi), Option.map_some,
        List.getElem?_eq_getElem hi, Option.some.injEq] using hi'
    · have hi' := congrArg (fun l => l[i]?) hnames
      simpa only [List.getElem?_map, List.getElem?_range (show i < 3 from hi), Option.map_some,
        List.getElem?_eq_getElem hi, Option.some.injEq] using hi'
    · exact beq_iff_eq.mp (List.all_eq_true.mp hidle i (List.mem_range.mpr hi))
  · rw [if_pos h0] at hrest
    cases hrest
    cases hfs

/-- The directory is set. -/
theorem pagingSwitch_run {c d : ℕ} (h0 : c ≠ 0) (hc : k.store c = some (.chunk d)) :
    pagingSwitch c k = some ((), { k with currentDirectory := d }) := by
  have hget : getChunk c k = some (d, k) := by
    simp [getChunk, run_bind, Kernel.getObj_run h0 hc, run_pure]
  rw [pagingSwitch, run_bind, hget]
  rfl

/-- Nothing has been loaded when the kernel has started, and all blocks from 1031 on are free. -/
theorem kernelStart_stage : ∃ k fp, kernelStart programKernel = some ((), k) ∧ NoProcesses k ∧
    ProgramsMounted fp ∧
    Stage programVolume fp k (fun i => 1031 ≤ i) 0 k.taskTail (slots 0 0 0) 0 := by
  obtain ⟨k, fp, hrun, hg, hfree, hm, hprog, hhead, hcur, hprocs⟩ := programKernel_mounts
  have hfrom (b : ℕ) (hb : 6 ≤ b) (hb' : b < 6 + 1026) : k.table.IsFree b :=
    (hfree.2 b (by unfold heapTotalBlocks; omega)).mpr (.inr hb)
  have hmany : 1026 ≤ k.freeBlocks := Kernel.le_freeBlocks hfrom (by decide)
  have hle := k.freeBlocks_le
  have hroom : k.Roomy (heapTotalBlocks - k.freeBlocks) := ⟨by omega⟩
  have hbuilt : Meets True (pagingNew4gb (pagingIsWriteable ||| pagingIsPresent |||
      pagingAccessFromAll)) k _ := pagingNew4gb_built (by decide) fun _ => ⟨hroom, by omega⟩
  obtain ⟨c, k₁, hnew, hext, hglob, -⟩ := hbuilt.exists_result
  -- the directory is in block 4, and the tables and the chunk in the row behind the others
  obtain ⟨-, hn, hd⟩ := hfree.kzalloc_run 4096 4 (by decide) (by decide)
    (fun i hi hi' => by
      rw [show blocksFor 4096 = 1 by decide] at hi'
      omega) fun j hj => ⟨j, le_rfl, by rw [show blocksFor 4096 = 1 by decide]; omega, by omega⟩
  have hrow : (k.allocated 4 4096).Row heapTotalBlocks (fun i => 6 ≤ i) 6 6 heapTotalBlocks :=
    ⟨(hfree.allocated hn).congr fun i _ => by
      rw [show blocksFor 4096 = 1 by decide]
      omega, le_rfl, fun i hi => by omega, fun i hi _ => hi, le_rfl⟩
  obtain ⟨hc, hchunk, hrow₁⟩ := (pagingNew4gb_row hd hrow (by decide)).of_eq hnew
  have hc0 : c ≠ 0 := by
    rw [hc]
    exact blockAddr_pos _
  have hm₁ := hm.of_globals hglob
  have hg₁ := hext.keeps.guarded hg
  have hhead₁ := (Kernel.taskHead_of_globals hglob).trans hhead
  have hprocs₁ : k₁.processes = k.processes :=
    (Kernel.processes_of_globals hglob).trans rfl
  have hcur₁ := (Kernel.currentProcess_of_globals hglob).trans hcur
  refine ⟨{ k₁ with kernelChunk := c, currentDirectory := blockAddr 4 }, fp, ?_,
    ⟨hg₁, fun i hi => (congrFun hprocs₁ i).trans (hprocs i hi), hcur₁⟩, hprog,
    hg₁, (hrow₁.free.congr fun i _ => ?_).of_heapTable rfl, { hm₁ with }, hhead₁, rfl,
    fun i hi => ?_, hcur₁⟩
  · rw [kernelStart, run_bind, hrun, Option.bind_some, run_bind, hnew, Option.bind_some, run_bind,
      run_modify, Option.bind_some]
    exact pagingSwitch_run hc0 hchunk
  · omega
  · rw [slots_free]
    exact (congrFun hprocs₁ i).trans (hprocs i hi)

end Hyperion
