import Hyperion.FileCursor
import Hyperion.Lib.Links

/-!
# The cluster of an offset

What `fat16_get_cluster_for_offset` finds. A file is a chain of clusters, in which the entry of
one cluster in the file allocation table is the number of the next (`clusterBehind`), and
`FollowsChain` is what the function is for : the cluster that holds the offset, or a negative code
if the chain ends before.

The function takes the status of reading the table for the entry that is there. The status of a
read that succeeds is 0, the mark of a free cluster, so that it never follows a link
(`fat16GetClusterForOffset_eq`). It is right exactly where there is none to follow, or where the
link is not one to a cluster either (`fat16GetClusterForOffset_follows_iff`). On a volume with a
chain of two clusters it is not (`fat16GetClusterForOffset_not_always_follows`).
-/

namespace Hyperion

open Links

/-! ## Clusters -/

/-- The cluster size in bytes. -/
def clusterSize (p : FatPrivate) : ℕ := p.header.sectorsPerCluster * sectorSize

theorem sizeOfClusterBytes_eq (p : FatPrivate) : sizeOfClusterBytes p = clusterSize p :=
  (Int.natCast_mul _ _).symm

theorem clusterSize_pos {p : FatPrivate} : 0 < clusterSize p ↔ 0 < p.header.sectorsPerCluster :=
  Nat.mul_pos_iff_of_pos_right (by decide)

/-- A link that leads to no cluster : free, reserved, bad or the end of the chain. -/
def LinkMark (entry : ℕ) : Prop := entry = 0 ∨ 0xFFF0 ≤ entry

instance : DecidablePred LinkMark := fun _ => inferInstanceAs (Decidable (_ ∨ _))

variable (image : DiskImage) (p : FatPrivate)

/-- The cluster `n` links behind `start`, if there is one. -/
def clusterBehind (start n : ℕ) : Option ℕ := walk (clusterAfter image p) LinkMark n start

/-- `fat16_get_cluster_for_offset` returns the cluster of the offset, and a negative code if
the chain does not reach so far. -/
def FollowsChain (start offset : ℕ) : Prop :=
  ∃ res, fat16GetClusterForOffset image p start offset = some res ∧
    match clusterBehind image p start (offset / clusterSize p) with
    | some cluster => res = cluster
    | none => res < 0

variable {image p}

/-! ## What the code computes -/

/-- The position sought in the table is the beginning of a sector. -/
theorem fat16GetFatEntry_eq (cluster : Int) : fat16GetFatEntry image p cluster = some 0 := by
  have hdvd (x : Int) : (512 : Int) ∣ wrapInt (512 * x) := by
    unfold wrapInt asSigned asUnsigned
    omega
  have hread : Readable
      (wrapInt ((fat16GetFirstFatSector p * sectorSize : ℕ) * (cluster * 2))) := by
    refine .inr ?_
    rw [Int.natCast_mul, Int.mul_comm (fat16GetFirstFatSector p : Int), Int.mul_assoc]
    exact hdvd _
  rw [fat16GetFatEntry, diskstreamerSeek, diskstreamerRead_bytesAt image (wrapInt_wrapInt _)
    fun _ => hread]
  rfl

/-- The first link that would have to be followed is taken to be free. -/
theorem fat16GetClusterForOffset_eq {cluster offset : Int} (hpos : 0 < sizeOfClusterBytes p) :
    fat16GetClusterForOffset image p cluster offset =
      some (if offset < sizeOfClusterBytes p then cluster else - EIO) := by
  rw [fat16GetClusterForOffset, if_neg hpos.ne']
  split_ifs with hlt
  · rw [(tdiv_toNat_eq_zero hpos).mpr hlt]
    rfl
  · cases hn : (offset.tdiv (sizeOfClusterBytes p)).toNat with
    | zero => exact absurd ((tdiv_toNat_eq_zero hpos).mp hn) hlt
    | succ n => simp [fat16GetClusterForOffsetLoop, fat16GetFatEntry_eq]

/-- The code follows the chain exactly if the offset lies in the first cluster or one of the
links on the way is a mark. -/
theorem fat16GetClusterForOffset_follows_iff (image : DiskImage) (p : FatPrivate)
    (start offset : ℕ) : FollowsChain image p start offset ↔
      0 < p.header.sectorsPerCluster ∧ (offset < clusterSize p ∨
        ∃ i < offset / clusterSize p, LinkMark ((clusterAfter image p)^[i + 1] start)) := by
  rcases Nat.eq_zero_or_pos p.header.sectorsPerCluster with h0 | hpos
  · refine iff_of_false ?_ fun h => h.1.ne' h0
    rintro ⟨res, hres, -⟩
    have hsize := (fat16GetClusterForOffset_eq_some hres).1
    rw [sizeOfClusterBytes_eq, clusterSize, h0] at hsize
    omega
  have hsize : 0 < clusterSize p := clusterSize_pos.mpr hpos
  have hrun : fat16GetClusterForOffset image p start offset =
      some (if offset < clusterSize p then (start : Int) else - EIO) := by
    rw [fat16GetClusterForOffset_eq (by rw [sizeOfClusterBytes_eq]; omega), sizeOfClusterBytes_eq]
    simp only [Int.ofNat_lt]
  rw [FollowsChain, hrun, ← walk_eq_none_iff]
  simp only [hpos, true_and, Option.some.injEq, exists_eq_left', clusterBehind]
  by_cases hlt : offset < clusterSize p
  · rw [Nat.div_eq_of_lt hlt]
    simp [hlt, walk]
  · rw [if_neg hlt, or_iff_right hlt]
    cases walk (clusterAfter image p) LinkMark (offset / clusterSize p) start with
    | none => exact iff_of_true (by decide) rfl
    | some cluster => exact iff_of_false (by unfold EIO; omega) (by simp)

/-! ## A volume with a chain of two clusters -/

/-- The volume with the chain from cluster 2 to cluster 3, both data clusters. -/
def chainVolume (root data : List UInt8) : DiskImage := fun lba j =>
  if lba = 1 then [0xF8, 0xFF, 0xFF, 0xFF, 3, 0, 0xFF, 0xFF].getD j 0
  else if lba = 4 then (data.drop sectorSize).getD j 0
  else smallVolume root data lba j

/-- The volume as it is mounted with an empty root directory. -/
def smallPrivate : FatPrivate := ⟨smallHeader, ⟨0, [], 0, 2, 3⟩⟩

/-- Cluster 3 is not found behind cluster 2. -/
theorem fat16GetClusterForOffset_not_always_follows :
    ¬∀ (image : DiskImage) (p : FatPrivate) (start offset : ℕ), 0 < p.header.sectorsPerCluster →
      FollowsChain image p start offset := by
  intro hall
  obtain ⟨res, hres, hfollows⟩ := hall (chainVolume [] []) smallPrivate 2 512 (by decide)
  have hrun : fat16GetClusterForOffset (chainVolume [] []) smallPrivate (2 : ℕ) (512 : ℕ) =
      some (- EIO) := by
    rw [fat16GetClusterForOffset_eq (by decide), if_neg (by decide)]
  have hbehind : clusterBehind (chainVolume [] []) smallPrivate 2 (512 / clusterSize smallPrivate) =
      some 3 := by decide +kernel
  rw [hbehind] at hfollows
  rw [hrun] at hres
  obtain rfl : (3 : ℕ) = res := hfollows.symm
  exact absurd hres (by decide)

end Hyperion
