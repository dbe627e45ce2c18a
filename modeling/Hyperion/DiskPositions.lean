import Hyperion.Mount
import Hyperion.ReadPieces

/-!
# Positions of clusters

The position of a byte of a cluster is computed in an `int`. It is the exact one for the
first 2 GiB of a volume (`fat16StartingPos_exact_iff`), which the volume of the boot sector
in `boot.asm` is larger than.

`exactPos` is the position without overflow, from the layout of a FAT16 volume : the reserved
sectors, the allocation tables, the root directory, and then the clusters, of which the first has
the number 2 (`clusterSector`). What the code takes for the start of the clusters is the end of the
root directory, which it stores when it mounts the volume (`dataPos_of_mounted`). `InVolume` bounds
the number of a cluster by the sectors of the volume.
-/

namespace Hyperion

open Partial

/-! ## The data area -/

section Volume

variable (image : DiskImage)

/-- `number_of_sectors`, or `sectors_big` if it is zero. -/
def volumeSectors : ℕ :=
  let boot := diskBytes image 0 62
  let numberOfSectors := itemWord16 boot 19
  let sectorsBig := itemWord16 boot 32 + itemWord16 boot 34 * 65536
  if numberOfSectors ≠ 0 then numberOfSectors else sectorsBig

/-- The first sector behind the reserved ones, the allocation tables and the root directory. -/
def dataStartSector (header : FatHeader) : ℕ :=
  header.reservedSectors + header.fatCopies * header.sectorsPerFat +
    (header.rootDirEntries * directoryItemSize + (sectorSize - 1)) / sectorSize

/-- The first sector of a cluster. -/
def clusterSector (header : FatHeader) (cluster : ℕ) : ℕ :=
  dataStartSector header + (cluster - 2) * header.sectorsPerCluster

/-- The cluster is one of the volume's. -/
structure InVolume (cluster : ℕ) : Prop where
  first : 2 ≤ cluster
  inside : clusterSector (bootHeader image) cluster + (bootHeader image).sectorsPerCluster ≤
    volumeSectors image

end Volume

/-- The exact position of a byte of a cluster. -/
def exactPos (header : FatHeader) (cluster offset : ℕ) : ℕ :=
  clusterSector header cluster * sectorSize + offset

variable {k k' : Kernel} {p : FatPrivate} {cluster offset : ℕ}

theorem wrapInt_natCast_eq_iff (n : ℕ) : wrapInt n = n ↔ n < 2147483648 := by
  have := wrapInt_bounds n
  refine ⟨fun h => by omega, fun h => wrapInt_of_range (by omega) (by omega)⟩

/-- The data area of a mounted volume begins behind its root directory. -/
theorem dataPos_of_mounted (hmount : fat16Resolve k = some (0, k'))
    (hp : k'.disk.fsPrivate = some p) (hcluster : 2 ≤ cluster) :
    p.header = bootHeader k'.image ∧
      dataPos p cluster = (clusterSector p.header cluster * sectorSize : ℕ) := by
  obtain ⟨himage, hheader, hroot⟩ := mounted_rootRead hmount hp
  refine ⟨by rw [hheader, himage], ?_⟩
  have hsector : rootSector (bootHeader k.image) + rootSectors (bootHeader k.image) =
      dataStartSector (bootHeader k.image) := by
    rw [rootSectors_eq, rootSector, dataStartSector, Nat.add_comm (_ * _)]
  rw [dataPos, hroot.ending, hheader, hsector, clusterSector, Int.natCast_mul, Int.natCast_add,
    Int.natCast_mul, Int.natCast_sub hcluster]
  rfl

/-- A read in a cluster of a mounted volume seeks the exact position of its first byte exactly
if that is below 2 ^ 31. -/
theorem fat16StartingPos_exact_iff (hmount : fat16Resolve k = some (0, k'))
    (hp : k'.disk.fsPrivate = some p) (hcluster : InVolume k'.image cluster)
    (hoffset : offset < clusterSize p) :
    fat16StartingPos k'.image p cluster offset =
      some (.ok (exactPos (bootHeader k'.image) cluster offset : ℕ)) ↔
        exactPos (bootHeader k'.image) cluster offset < 2147483648 := by
  obtain ⟨hheader, hpos⟩ := dataPos_of_mounted hmount hp hcluster.first
  rw [fat16StartingPos_eq (by omega) (Int.natCast_nonneg _), if_pos (by omega),
    startPos_of_lt hoffset, hpos, hheader, ← Int.natCast_add, Option.some.injEq, Except.ok.injEq]
  exact wrapInt_natCast_eq_iff _

/-! ## The boot sector of `boot.asm` -/

def bootSector : List UInt8 :=
  [0xEB, 0x3C, 0x90, 72, 65, 82, 68, 73, 79, 83, 32, 0, 2, 0x80, 200, 0, 2, 0x40, 0, 0, 0, 0xF8,
    0, 1, 0x20, 0, 0x40, 0, 0, 0, 0, 0, 0x94, 0x35, 0x77, 0, 0x80, 0, 0x29, 5, 0xD1, 0, 0,
    72, 65, 82, 68, 73, 79, 83, 32, 66, 79, 79, 70, 65, 84, 49, 54, 32, 32, 32]

/-- An empty volume behind the boot sector. -/
def bootImage : DiskImage := fun lba j => if lba = 0 then bootSector.getD j 0 else 0

theorem bootImage_mounted : ∃ k' p, fat16Resolve { Kernel.empty with image := bootImage } =
    some (0, k') ∧ k'.disk.fsPrivate = some p ∧ k'.image = bootImage ∧ clusterSize p = 65536 := by
  have h : ((fat16Resolve { Kernel.empty with image := bootImage }).map fun x =>
      (x.1, x.2.disk.fsPrivate.map clusterSize)) = some (0, some 65536) := by
    decide +kernel
  obtain ⟨⟨res, k'⟩, hrun, hx⟩ := Option.map_eq_some_iff.mp h
  obtain ⟨rfl, hp⟩ := Prod.mk.inj hx
  obtain ⟨p, hp, hsize⟩ := Option.map_eq_some_iff.mp hp
  exact ⟨k', p, hrun, hp, (fat16Resolve_mounts.of_eq hrun rfl).1, hsize⟩

/-- The first cluster begins at sector 716. -/
theorem fat16StartingPos_exact_first : ∃ k' p,
    fat16Resolve { Kernel.empty with image := bootImage } = some (0, k') ∧
      k'.disk.fsPrivate = some p ∧ fat16StartingPos k'.image p 2 5 = some (.ok 366597) := by
  obtain ⟨k', p, hrun, hp, himage, hsize⟩ := bootImage_mounted
  have hcluster : InVolume k'.image 2 := by
    rw [himage]
    exact ⟨by decide, by decide +kernel⟩
  have hexact : exactPos (bootHeader k'.image) 2 5 = 366597 := by
    rw [himage]
    decide +kernel
  have hin : 5 < clusterSize p := by rw [hsize]; decide
  have h := (fat16StartingPos_exact_iff hrun hp hcluster hin).mpr (by rw [hexact]; decide)
  rw [hexact] at h
  exact ⟨k', p, hrun, hp, h⟩

/-- Cluster 32765 lies behind the first 2 GiB. -/
theorem fat16StartingPos_not_always_exact : ¬∀ (k k' : Kernel) (p : FatPrivate)
    (cluster offset : ℕ), fat16Resolve k = some (0, k') → k'.disk.fsPrivate = some p →
    InVolume k'.image cluster → offset < clusterSize p →
    fat16StartingPos k'.image p cluster offset =
      some (.ok (exactPos (bootHeader k'.image) cluster offset : ℕ)) := by
  intro hall
  obtain ⟨k', p, hrun, hp, himage, hsize⟩ := bootImage_mounted
  have hcluster : InVolume k'.image 32765 := by
    rw [himage]
    exact ⟨by decide, by decide +kernel⟩
  have hexact : exactPos (bootHeader k'.image) 32765 0 = 2147522560 := by
    rw [himage]
    decide +kernel
  have h := hall _ _ _ 32765 0 hrun hp hcluster (by rw [hsize]; decide)
  rw [hexact, fat16StartingPos_eq (by rw [hsize]; decide) (by decide),
    if_pos (by rw [hsize]; decide), Option.some.injEq, Except.ok.injEq] at h
  have hbounds := wrapInt_startPos p (32765 : ℕ) (0 : ℕ) ▸ wrapInt_bounds _
  rw [h] at hbounds
  omega

end Hyperion
