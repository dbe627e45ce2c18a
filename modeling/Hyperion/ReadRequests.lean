import Hyperion.DiskPositions

/-!
# The divisions of a read

A read divides by the cluster size, which comes from the boot sector. `fat16_resolve` checks
the signature there and no other field, so that it accepts a volume with no sectors in a
cluster. The reads of a mounted volume end, and each step of one reads a byte or more, exactly
if there are some (`mounted_reads_end_iff`).

A division by zero is a fault of the processor, and a recursion without progress has no end. So that
the two are not the same as any other missing result, the read is given once more with its
divisions checked and its requests recorded (`fat16ReadRequests`, `ReadStop`).
`fat16ReadInternal_requests` ties it to the read of the model : one that returns has divided by
nothing that is zero, and stores the bytes that it has asked for. With a cluster size every step
takes at least a byte from what is left (`fat16ReadRequests_ok`).
-/

namespace Hyperion

open Partial

/-! ## The code -/

/-- What a read can stop with before its end. -/
inductive ReadStop
  | divisionByZero
  | tooDeep
  | undefined

def checkedDiv (a b : Int) : Except ReadStop Int :=
  if b = 0 then .error .divisionByZero else .ok (a.tdiv b)

def checkedMod (a b : Int) : Except ReadStop Int :=
  if b = 0 then .error .divisionByZero else .ok (a.tmod b)

/-- A call of `diskstreamer_read`, at the position that was sought. -/
structure ReadRequest where
  pos : Int
  total : Int

section Code

variable (image : DiskImage) (fatPrivate : FatPrivate)

/-- `fat16_get_cluster_for_offset` with its division. -/
def fat16ClusterForOffsetChecked (startingCluster offset : Int) : Except ReadStop Int := do
  let clustersAhead ← checkedDiv offset (sizeOfClusterBytes fatPrivate)
  match fat16GetClusterForOffsetLoop image fatPrivate clustersAhead.toNat startingCluster with
  | some cluster => return cluster
  | none => throw .undefined

/-- What `fat16_read_internal_from_stream` asks of the stream, at most `fuel` calls deep. The
bytes that are read have no influence on it. -/
def fat16ReadRequests :
    (fuel : ℕ) → (cluster offset total : Int) → Except ReadStop (List ReadRequest)
  | 0, _, _, _ => throw .tooDeep
  | fuel + 1, cluster, offset, total => do
    let clusterToUse ← fat16ClusterForOffsetChecked image fatPrivate cluster offset
    if clusterToUse < 0 then return []
    let offsetFromCluster ← checkedMod offset (sizeOfClusterBytes fatPrivate)
    let startingSector := fat16ClusterToSector fatPrivate clusterToUse
    let startingPos := wrapInt (startingSector * sectorSize + offsetFromCluster)
    let totalToRead :=
      if sizeOfClusterBytes fatPrivate < total then sizeOfClusterBytes fatPrivate else total
    let total := total - totalToRead
    if 0 < total then
      let rest ← fat16ReadRequests fuel cluster (wrapInt (offset + totalToRead)) total
      return ⟨startingPos, totalToRead⟩ :: rest
    return [⟨startingPos, totalToRead⟩]

/-- The read divides by nothing that is zero, its recursion comes to an end, and each step of
it reads a byte or more. -/
def ReadEnds (cluster offset total : Int) : Prop :=
  ∃ fuel reads, fat16ReadRequests image fatPrivate fuel cluster offset total = .ok reads ∧
    ∀ read ∈ reads, 1 ≤ read.total

end Code

variable {image : DiskImage} {p : FatPrivate}

variable {fuel : ℕ} {cluster offset total res : Int}

/-! ## One step -/

theorem ok_bind {ε α β : Type} (a : α) (f : α → Except ε β) : (Except.ok a >>= f) = f a := rfl

/-- The divisor is not zero where a cluster is found. -/
theorem fat16ClusterForOffsetChecked_of_some
    (h : fat16GetClusterForOffset image p cluster offset = some res) :
    sizeOfClusterBytes p ≠ 0 ∧ fat16ClusterForOffsetChecked image p cluster offset = .ok res := by
  unfold fat16GetClusterForOffset at h
  split_ifs at h with hsize
  refine ⟨hsize, ?_⟩
  rw [fat16ClusterForOffsetChecked, checkedDiv, if_neg hsize, ok_bind, h]
  rfl

/-- A call that finds the status `res` or the cluster. -/
theorem fat16ReadRequests_step
    (h : fat16GetClusterForOffset image p cluster offset = some res) :
    fat16ReadRequests image p (fuel + 1) cluster offset total =
      let pos := wrapInt (fat16ClusterToSector p res * sectorSize +
        offset.tmod (sizeOfClusterBytes p))
      if res < 0 then .ok []
      else if sizeOfClusterBytes p < total then
        (fat16ReadRequests image p fuel cluster (wrapInt (offset + sizeOfClusterBytes p))
          (total - sizeOfClusterBytes p)).map (⟨pos, sizeOfClusterBytes p⟩ :: ·)
      else .ok [⟨pos, total⟩] := by
  obtain ⟨hsize, hlook⟩ := fat16ClusterForOffsetChecked_of_some h
  rw [fat16ReadRequests, hlook, ok_bind, checkedMod, if_neg hsize]
  dsimp only
  split_ifs with hneg hmore hrest hrest
  · rfl
  · rw [ok_bind]
    cases fat16ReadRequests image p fuel cluster _ _ <;> rfl
  · omega
  · omega
  · rfl

/-- A call with no sectors in a cluster. -/
theorem fat16ReadRequests_divisionByZero (hsize : sizeOfClusterBytes p = 0) :
    fat16ReadRequests image p (fuel + 1) cluster offset total = .error .divisionByZero := by
  rw [fat16ReadRequests, fat16ClusterForOffsetChecked, checkedDiv, if_pos hsize]
  rfl

/-! ## The requests are those of the read -/

/-- The request that a piece answers. -/
def Piece.request (piece : Piece) : ReadRequest := ⟨piece.pos, piece.bytes.length⟩

/-- What a read asks for is what it gets, where it gets all of it. -/
theorem fat16ReadRequests_of_pieces : ∀ {fuel : ℕ} {cluster offset total res : Int}
    {pieces : List Piece}, fat16ReadPieces image p fuel cluster offset total = some (res, pieces) →
    0 ≤ total →
    fat16ReadRequests image p fuel cluster offset total = .ok (pieces.map Piece.request)
  | 0, _, _, _, _, _, h, _ => nomatch h
  | fuel + 1, cluster, offset, total, res, pieces, h, htotal => by
    simp only [fat16ReadPieces, fat16StartingPos, Option.bind_eq_bind,
      Option.bind_eq_some_iff] at h
    obtain ⟨start, ⟨clusterToUse, hlook, hstart⟩, h⟩ := h
    have hsize := sizeOfClusterBytes_nonneg p
    rw [fat16ReadRequests_step hlook]
    split_ifs at hstart with hneg
    · obtain rfl := Option.some.inj hstart
      obtain ⟨-, rfl⟩ := Prod.mk.inj (Option.some.inj h)
      exact if_pos hneg
    · obtain rfl := Option.some.inj hstart
      simp only [Option.bind_eq_some_iff, diskstreamerSeek] at h
      obtain ⟨⟨bytes, _⟩, hread, h⟩ := h
      have hbytes := congrArg List.length (diskstreamerRead_bytes image (wrapInt_wrapInt _) hread)
      rw [length_bytesAt] at hbytes
      dsimp only
      rw [if_neg hneg]
      split_ifs at hbytes h ⊢ with hmore hrest hrest
      · obtain ⟨⟨res', rest⟩, htail, h⟩ := Option.bind_eq_some_iff.mp h
        obtain ⟨-, rfl⟩ := Prod.mk.inj (Option.some.inj h)
        rw [fat16ReadRequests_of_pieces htail hrest.le, List.map_cons, Piece.request, hbytes,
          Int.toNat_of_nonneg hsize]
        rfl
      · omega
      · omega
      · obtain ⟨-, rfl⟩ := Prod.mk.inj (Option.some.inj h)
        rw [List.map_singleton, Piece.request, hbytes, Int.toNat_of_nonneg htotal]

theorem sum_requests (pieces : List Piece) :
    ((pieces.map Piece.request).map ReadRequest.total).sum =
      (pieces.flatMap Piece.bytes).length := by
  induction pieces with
  | nil => rfl
  | cons piece rest ih =>
    rw [List.flatMap_cons, List.length_append, Int.natCast_add, ← ih]
    rfl

/-- A read that returns has divided by nothing that is zero, and stores the bytes that it has
asked for. -/
theorem fat16ReadInternal_requests {bytes : List UInt8} (htotal : 0 ≤ total)
    (h : fat16ReadInternal image p cluster offset total = some (res, bytes)) :
    ∃ reads, fat16ReadRequests image p (total.toNat + 1) cluster offset total = .ok reads ∧
      (reads.map ReadRequest.total).sum = bytes.length := by
  rw [fat16ReadInternal, fat16ReadInternalFromStream_eq_pieces] at h
  obtain ⟨⟨res', pieces⟩, hpieces, hr⟩ := Option.map_eq_some_iff.mp h
  obtain ⟨-, rfl⟩ := Prod.mk.inj hr
  exact ⟨_, fat16ReadRequests_of_pieces hpieces htotal, sum_requests pieces⟩

/-! ## Reads that end -/

/-- Every step takes at least a byte from what is left to read. -/
theorem fat16ReadRequests_ok (image : DiskImage) (hpos : 0 < sizeOfClusterBytes p) :
    ∀ (fuel : ℕ) (cluster offset : Int) {total : Int}, 1 ≤ total → total < fuel →
      ∃ reads, fat16ReadRequests image p fuel cluster offset total = .ok reads ∧
        ∀ read ∈ reads, 1 ≤ read.total
  | 0, _, _, _, htotal, hfuel => by omega
  | fuel + 1, cluster, offset, total, htotal, hfuel => by
    rw [fat16ReadRequests_step (fat16GetClusterForOffset_eq hpos)]
    dsimp only
    generalize (if offset < sizeOfClusterBytes p then cluster else - EIO) = clusterToUse
    split_ifs with hneg hmore
    · exact ⟨[], rfl, fun _ hmem => nomatch hmem⟩
    · have hrest : total - sizeOfClusterBytes p < fuel := by omega
      obtain ⟨reads, hreads, hbyte⟩ := fat16ReadRequests_ok image hpos fuel cluster
        (wrapInt (offset + sizeOfClusterBytes p)) (by omega) hrest
      rw [hreads]
      exact ⟨_, rfl, List.forall_mem_cons.mpr ⟨hpos, hbyte⟩⟩
    · exact ⟨_, rfl, List.forall_mem_singleton.mpr htotal⟩

theorem not_readEnds (hsize : sizeOfClusterBytes p = 0) :
    ¬ReadEnds image p cluster offset total := by
  rintro ⟨fuel, reads, hreads, -⟩
  cases fuel with
  | zero => exact nomatch hreads
  | succ fuel =>
    rw [fat16ReadRequests_divisionByZero hsize] at hreads
    exact nomatch hreads

/-- Every read ends exactly if a cluster has a size. -/
theorem readEnds_iff (image : DiskImage) (p : FatPrivate) :
    (∀ cluster offset total : Int, 0 ≤ offset → 1 ≤ total → ReadEnds image p cluster offset total) ↔
      p.header.sectorsPerCluster ≠ 0 := by
  rw [← Nat.pos_iff_ne_zero, ← clusterSize_pos]
  refine ⟨fun h => ?_, fun hpos cluster offset total _ htotal => ?_⟩
  · by_contra hzero
    have hsize : sizeOfClusterBytes p = 0 := by
      rw [sizeOfClusterBytes_eq]
      omega
    exact not_readEnds hsize (h 2 0 1 le_rfl le_rfl)
  · have hsize : 0 < sizeOfClusterBytes p := by
      rw [sizeOfClusterBytes_eq]
      omega
    exact ⟨total.toNat + 1, fat16ReadRequests_ok image hsize _ _ _ htotal (by omega)⟩

/-! ## A mounted volume -/

theorem bootHeader_sectorsPerCluster (image : DiskImage) :
    (bootHeader image).sectorsPerCluster = (image 0 13).toNat := rfl

/-- The reads of a volume that is accepted end exactly if its boot sector has sectors in a
cluster. -/
theorem mounted_reads_end_iff {k k' : Kernel} (hmount : fat16Resolve k = some (0, k')) :
    ∃ p, k'.disk.fsPrivate = some p ∧
      ((∀ cluster offset total : Int, 0 ≤ offset → 1 ≤ total →
        ReadEnds k'.image p cluster offset total) ↔ k.image 0 13 ≠ 0) := by
  obtain ⟨-, dir, hp, -⟩ := fat16Resolve_mounts.of_eq hmount rfl
  refine ⟨_, hp, (readEnds_iff _ _).trans ?_⟩
  rw [bootHeader_sectorsPerCluster, Ne, ← UInt8.toNat_zero, UInt8.toNat_inj]

theorem mounted_reads_end_boot : ∃ k' p,
    fat16Resolve { Kernel.empty with image := bootImage } = some (0, k') ∧
      k'.disk.fsPrivate = some p ∧ ∀ cluster offset total : Int, 0 ≤ offset → 1 ≤ total →
        ReadEnds k'.image p cluster offset total := by
  obtain ⟨k', _, hrun, -⟩ := bootImage_mounted
  obtain ⟨p, hp, hends⟩ := mounted_reads_end_iff hrun
  exact ⟨k', p, hrun, hp, hends.mpr (by decide)⟩

/-- The boot sector with no sectors in a cluster. -/
def emptyClusterImage : DiskImage := fun lba j => if lba = 0 ∧ j = 13 then 0 else bootImage lba j

/-- It is accepted, and no read of the volume comes to its end. -/
theorem mounted_reads_divide_by_zero : ∃ k' p,
    fat16Resolve { Kernel.empty with image := emptyClusterImage } = some (0, k') ∧
      k'.disk.fsPrivate = some p ∧
      fat16ReadRequests k'.image p 2 2 0 1 = .error .divisionByZero ∧
      ¬ReadEnds k'.image p 2 0 1 := by
  have h : ((fat16Resolve { Kernel.empty with image := emptyClusterImage }).map fun x =>
      (x.1, x.2.disk.fsPrivate.map clusterSize)) = some (0, some 0) := by
    decide +kernel
  obtain ⟨⟨res, k'⟩, hrun, hx⟩ := Option.map_eq_some_iff.mp h
  obtain ⟨rfl, hp⟩ := Prod.mk.inj hx
  obtain ⟨p, hp, hzero⟩ := Option.map_eq_some_iff.mp hp
  have hsize : sizeOfClusterBytes p = 0 := by
    rw [sizeOfClusterBytes_eq, hzero]
    rfl
  exact ⟨k', p, hrun, hp, fat16ReadRequests_divisionByZero hsize, not_readEnds hsize⟩

end Hyperion
