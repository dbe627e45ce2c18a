import Hyperion.DirectoryScan
import Hyperion.Mount

/-!
# The scan of the root directory

The entries of the root directory are counted on the disk, and the array that they are looked
up in has the length of the boot sector. The count has no bound of its own : it stays inside
the array exactly if a terminator comes in time (`rootScanInside_iff`), which a full root
directory does not have (`rootScan_not_always_inside`).

The search takes the count for the length of the array, so that a count of more than the root
entries is a search behind its end. `TerminatorInTime` is on the image alone : from the beginning of
the root directory on there is a terminator, with no more live entries before it than the boot
sector has root entries. Deleted entries are not counted, so that the terminator itself may lie
behind the root directory.
-/

namespace Hyperion

open Partial

/-! ## The count and the array -/

/-- The count of `fat16_get_root_directory` comes to a result of at most the number of root
entries, and in a volume that is mounted with it every entry it counts is in the array. -/
structure RootScanInside (image : DiskImage) (total : ℕ) : Prop where
  counted : fat16GetTotalItemsForDirectory image (rootSector (bootHeader image)) =
    some (total : Int)
  bounded : total ≤ (bootHeader image).rootDirEntries
  indices : ∀ k k' p, k.image = image → fat16Resolve k = some (0, k') →
    k'.disk.fsPrivate = some p → p.rootDirectory.total = total ∧
      ∀ i < total, directoryItemSize * (i + 1) ≤ p.rootDirectory.bytes.length

/-- From the beginning of the root directory on the disk has a terminator with no more live
entries before it than the root directory has room for. -/
def TerminatorInTime (image : DiskImage) : Prop :=
  ∃ n, EndsAt image (rootPos (bootHeader image)) n ∧
    liveAmong image (rootPos (bootHeader image)) n ≤ (bootHeader image).rootDirEntries

/-- A mounted root directory has the count as its total, and its array has room for as many
entries as the boot sector says. -/
theorem rootDirectory_of_mounted {k k' : Kernel} {p : FatPrivate}
    (hmount : fat16Resolve k = some (0, k')) (hp : k'.disk.fsPrivate = some p) :
    fat16GetTotalItemsForDirectory k.image (rootSector (bootHeader k.image)) =
        some p.rootDirectory.total ∧
      p.rootDirectory.bytes.length = (bootHeader k.image).rootDirEntries * directoryItemSize := by
  obtain ⟨-, -, hroot⟩ := mounted_rootRead hmount hp
  exact ⟨hroot.total, by rw [hroot.bytes, length_bytesAt]⟩

/-- The scan of the root directory stays inside it exactly if a terminator comes in time. -/
theorem rootScanInside_iff (image : DiskImage) :
    (∃ total, RootScanInside image total) ↔ TerminatorInTime image := by
  constructor
  · rintro ⟨total, h⟩
    obtain ⟨n, hends, htotal⟩ := fat16GetTotalItemsForDirectory_eq_some_iff.mp h.counted
    exact ⟨n, hends, Int.ofNat_inj.mp htotal ▸ h.bounded⟩
  · rintro ⟨n, hends, hle⟩
    have hcount := fat16GetTotalItemsForDirectory_eq_some_iff.mpr ⟨n, hends, rfl⟩
    refine ⟨_, hcount, hle, fun k k' p himage hmount hp => ?_⟩
    subst himage
    obtain ⟨htotal, hlength⟩ := rootDirectory_of_mounted hmount hp
    refine ⟨Option.some.inj (htotal.symm.trans hcount), fun i hi => ?_⟩
    rw [hlength, Nat.mul_comm]
    exact Nat.mul_le_mul_right _ (hi.trans_le hle)

/-! ## A full root directory -/

/-- The small volume with all of its 16 root entries in use, and a cluster that does not begin
with zero. -/
def fullVolume : DiskImage := smallVolume (List.replicate 16 (fileEntry 65)).flatten (fileEntry 66)

/-- Behind a full root directory the count goes on into the first cluster. -/
theorem rootScan_not_always_inside : ¬∀ image : DiskImage, (bootHeader image).signature = 0x29 →
    ∃ total, RootScanInside image total := by
  intro hall
  obtain ⟨total, h⟩ := hall fullVolume (by decide +kernel)
  have hcount : fat16GetTotalItemsForDirectory fullVolume (rootSector (bootHeader fullVolume)) =
      some 17 := by decide +kernel
  have hentries : (bootHeader fullVolume).rootDirEntries = 16 := by decide +kernel
  have htotal := Option.some.inj (hcount.symm.trans h.counted)
  have := hentries ▸ h.bounded
  omega

end Hyperion
