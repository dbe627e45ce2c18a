import Hyperion.FileFrame

/-!
# A mounted volume

What `fat16_resolve` leaves when it accepts a disk : the header of the boot sector, and the
root directory with the number of its entries, the sectors read for it and the first sector
behind them (`fat16Resolve_mounts`).

`bootHeader` is the header as it is on the disk and `RootRead` the root directory as it is read. Its
sectors are rounded up from the number of entries (`rootSectors_eq`). The entries themselves are
read to memory and counted. Fields of the header are in the range of their types
(`mounted_inRange`), so that positions computed from them are bounded.
-/

namespace Hyperion

open Partial

/-! ## The layout of a volume -/

/-- The header in the boot sector. -/
def bootHeader (image : DiskImage) : FatHeader := FatHeader.ofBytes (diskBytes image 0 62)

/-- The fields are those of the header's types. -/
structure FatHeader.InRange (header : FatHeader) : Prop where
  sectorsPerCluster : header.sectorsPerCluster < 256
  reservedSectors : header.reservedSectors < 65536
  fatCopies : header.fatCopies < 256
  rootDirEntries : header.rootDirEntries < 65536
  sectorsPerFat : header.sectorsPerFat < 65536

/-- The sector where the root directory begins. -/
def rootSector (header : FatHeader) : ℕ :=
  header.fatCopies * header.sectorsPerFat + header.reservedSectors

/-- The number of sectors of the root directory. -/
def rootSectors (header : FatHeader) : ℕ :=
  header.rootDirEntries * directoryItemSize / sectorSize +
    if header.rootDirEntries * directoryItemSize % sectorSize ≠ 0 then 1 else 0

/-- The position that the root directory is read from. -/
def rootPos (header : FatHeader) : Int := wrapInt ((rootSector header : Int) * sectorSize)

/-- `dir` is the root directory as it has been read. -/
structure RootRead (image : DiskImage) (header : FatHeader) (dir : FatDirectory) : Prop where
  total : fat16GetTotalItemsForDirectory image (rootSector header) = some dir.total
  bytes : dir.bytes = bytesAt image (rootPos header) (header.rootDirEntries * directoryItemSize)
  ending : dir.endingSectorPos = (rootSector header + rootSectors header : ℕ)

theorem itemWord16_lt (bytes : List UInt8) (i : ℕ) : itemWord16 bytes i < 65536 := by
  have h₀ := (charAt bytes i).toNat_lt
  have h₁ := (charAt bytes (i + 1)).toNat_lt
  unfold itemWord16
  omega

theorem FatHeader.ofBytes_inRange (bytes : List UInt8) : (FatHeader.ofBytes bytes).InRange where
  sectorsPerCluster := (charAt bytes 13).toNat_lt
  reservedSectors := itemWord16_lt bytes 14
  fatCopies := (charAt bytes 16).toNat_lt
  rootDirEntries := itemWord16_lt bytes 17
  sectorsPerFat := itemWord16_lt bytes 22

/-- The sectors of the root directory, rounded up. -/
theorem rootSectors_eq (header : FatHeader) : rootSectors header =
    (header.rootDirEntries * directoryItemSize + (sectorSize - 1)) / sectorSize := by
  unfold rootSectors sectorSize
  split_ifs <;> omega

/-! ## Mounting -/

section Mounting

variable {k : Kernel} {header : FatHeader}

theorem fat16GetRootDirectory_reads : Meets False (fat16GetRootDirectory header) k fun r k' =>
    k.Grows k' ∧ ∀ dir, r.2 = some dir → r.1 = 0 ∧ RootRead k.image header dir := by
  have hsector : (header.fatCopies : Int) * header.sectorsPerFat + header.reservedSectors =
      rootSector header := by
    rw [rootSector, Int.natCast_add, Int.natCast_mul]
  simp only [fat16GetRootDirectory, Meets.bind_iff, Meets.get_iff, defined_iff, hsector]
  refine ⟨fun total htotal => ?_, fun _ => not_false⟩
  refine Kernel.kzalloc_grows (.refl k) fun p k₁ h₁ _ => ?_
  simp only [Meets.ite_iff, Meets.bind_iff, defined_iff, Meets.pure_iff]
  refine ⟨fun _ => ⟨h₁, fun _ h => absurd h (by simp)⟩, fun _ => ⟨fun r hread => ⟨h₁, ?_⟩,
    fun _ => not_false⟩⟩
  obtain ⟨bytes, stream⟩ := r
  rintro _ ⟨⟩
  refine ⟨trivial, htotal, ?_, ?_⟩
  · exact diskstreamerRead_bytes _ (wrapInt_wrapInt _) hread
  · simp only [rootSectors, Int.natCast_add]

/-- A volume that is accepted has the header of its boot sector, and the root directory that
the header describes. -/
theorem fat16Resolve_mounts : Meets False fat16Resolve k fun res k' => res = 0 →
    k'.image = k.image ∧ ∃ dir, k'.disk.fsPrivate = some ⟨bootHeader k.image, dir⟩ ∧
      RootRead k.image (bootHeader k.image) dir := by
  have hboot {k' : Kernel} (h : k.Grows k') :
      diskstreamerRead k'.image ⟨0⟩ 62 = some (diskBytes k.image 0 62, ⟨(0 + 62 : ℕ)⟩) := by
    rw [Kernel.image_of_globals h.globals]
    exact diskstreamerRead_eq k.image (by decide)
  simp only [fat16Resolve, Meets.bind_iff, diskstreamerNew]
  refine Kernel.kzalloc_grows (.refl k) fun p k₁ h₁ _ => ?_
  simp only [Meets.ite_iff, Meets.fault_iff, Meets.bind_iff, Meets.pure_iff]
  refine ⟨fun _ => not_false, fun _ => ?_⟩
  refine Kernel.kzalloc_grows h₁ fun s₁ k₂ h₂ _ => ⟨fun _ => not_false, fun _ => ?_⟩
  refine Kernel.kzalloc_grows h₂ fun s₂ k₃ h₃ _ => ⟨fun _ => not_false, fun _ => ?_⟩
  refine Kernel.kzalloc_grows h₃ fun s₃ k₄ h₄ _ => ⟨fun _ => not_false, fun _ => ?_⟩
  refine Kernel.kzalloc_grows h₄ fun s₄ k₅ h₅ _ => ⟨fun _ => not_false, fun _ => ?_⟩
  simp only [Meets.get_iff, defined_iff, hboot h₅, Option.some.injEq, forall_eq', reduceCtorEq,
    false_imp_iff, and_true, kfree_iff, Meets.modify_iff]
  refine ⟨fun _ => ⟨fun _ h => absurd h (by decide), fun _ h => absurd h (by decide)⟩, fun _ => ?_⟩
  refine fat16GetRootDirectory_reads.mono fun r t h => ?_
  obtain ⟨hgrows, hread⟩ := h
  have himage : t.image = k.image := Kernel.image_of_globals (hgrows.globals.trans h₅.globals)
  rw [Kernel.image_of_globals h₅.globals] at hread
  cases hdir : r.2 with
  | none =>
    exact Meets.pure_iff.mpr ⟨fun _ h => absurd h (by decide), fun _ h => absurd h (by decide)⟩
  | some dir =>
    obtain ⟨hok, hroot⟩ := hread dir hdir
    simp only [Meets.bind_iff, Meets.modify_iff, Meets.pure_iff, hok]
    exact ⟨fun h => absurd h (lt_irrefl _), fun _ _ => ⟨himage, dir, rfl, hroot⟩⟩

/-- What a mounted volume is. -/
theorem mounted_rootRead {k' : Kernel} {p : FatPrivate} (hmount : fat16Resolve k = some (0, k'))
    (hp : k'.disk.fsPrivate = some p) : k'.image = k.image ∧ p.header = bootHeader k.image ∧
      RootRead k.image (bootHeader k.image) p.rootDirectory := by
  obtain ⟨himage, dir, hdir, hroot⟩ := fat16Resolve_mounts.of_eq hmount rfl
  rw [hp, Option.some.injEq] at hdir
  subst hdir
  exact ⟨himage, rfl, hroot⟩

/-- The fields of its header are in the range of their types. -/
theorem mounted_inRange {k' : Kernel} {p : FatPrivate} (hmount : fat16Resolve k = some (0, k'))
    (hp : k'.disk.fsPrivate = some p) : p.header.InRange := by
  rw [(mounted_rootRead hmount hp).2.1]
  exact FatHeader.ofBytes_inRange _

end Mounting

end Hyperion
