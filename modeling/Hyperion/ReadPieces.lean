import Hyperion.ClusterChain

/-!
# The pieces of a read

`fat16_read_internal_from_stream` with what it does to the stream : the positions it seeks
and what it reads there. A read is cut into pieces of a cluster size counted from its own
beginning, so that a piece leaves its cluster unless it begins with it or ends inside it
(`staysInClusters_iff`).

`fat16ReadPieces` is the function with its pieces, and
`fat16ReadInternalFromStream_eq_pieces` says that their bytes, one behind the other, are those of
the read. Where a byte of a piece comes from is `Piece.sources`, and where it should come from is
the place of its offset in the cluster that is looked up for it (`StaysInClusters`). The first piece
begins where the offset is, in an `int` (`fat16ReadPieces_ok`), and a second one is sought only to
fail, since the chain is not followed (`fat16ReadPieces_beyond`). Of two bytes over the edge of a
cluster the second is that of the next sector of the disk (`not_staysInClusters_edge`).
-/

namespace Hyperion

/-! ## The code -/

/-- A seek and the bytes read behind it. -/
structure Piece where
  pos : Int
  bytes : List UInt8

/-- The positions that the bytes come from. -/
def Piece.sources (piece : Piece) : List Int :=
  (List.range piece.bytes.length).map fun i : ℕ => wrapInt (piece.pos + i)

section Code

variable (image : DiskImage) (fatPrivate : FatPrivate)

/-- The position that a read at `offset` seeks, or the status that it ends with. -/
def fat16StartingPos (cluster offset : Int) : Option (Except Int Int) := do
  let clusterToUse ← fat16GetClusterForOffset image fatPrivate cluster offset
  if clusterToUse < 0 then return .error clusterToUse
  let offsetFromCluster := offset.tmod (sizeOfClusterBytes fatPrivate)
  let startingSector := fat16ClusterToSector fatPrivate clusterToUse
  return .ok (wrapInt (startingSector * sectorSize + offsetFromCluster))

/-- The status, and the pieces that were read before it was known. -/
def fat16ReadPieces : (fuel : ℕ) → (cluster offset total : Int) → Option (Int × List Piece)
  | 0, _, _, _ => none
  | fuel + 1, cluster, offset, total => do
    match ← fat16StartingPos image fatPrivate cluster offset with
    | .error res => return (res, [])
    | .ok startingPos =>
      let totalToRead :=
        if sizeOfClusterBytes fatPrivate < total then sizeOfClusterBytes fatPrivate else total
      let stream := diskstreamerSeek ⟨0⟩ startingPos
      let (bytes, _) ← diskstreamerRead image stream totalToRead
      let total := total - totalToRead
      if 0 < total then
        let (res, rest) ←
          fat16ReadPieces fuel cluster (wrapInt (offset + totalToRead)) total
        return (res, ⟨startingPos, bytes⟩ :: rest)
      return (0, [⟨startingPos, bytes⟩])

end Code

variable {image : DiskImage} {p : FatPrivate}

/-- The pieces are those of the read, one behind the other. -/
theorem fat16ReadInternalFromStream_eq_pieces : ∀ (fuel : ℕ) (cluster offset total : Int),
    fat16ReadInternalFromStream image p fuel cluster offset total =
      (fat16ReadPieces image p fuel cluster offset total).map fun r =>
        (r.1, r.2.flatMap Piece.bytes)
  | 0, _, _, _ => rfl
  | fuel + 1, cluster, offset, total => by
    rw [fat16ReadInternalFromStream, fat16ReadPieces, fat16StartingPos]
    cases fat16GetClusterForOffset image p cluster offset with
    | none => rfl
    | some clusterToUse =>
      simp only [Option.bind_eq_bind, Option.bind_some, Option.pure_def]
      by_cases hneg : clusterToUse < 0
      · simp [hneg]
      · rw [if_neg hneg, if_neg hneg, Option.bind_some]
        dsimp only
        cases diskstreamerRead image _ _ with
        | none => rfl
        | some r =>
          simp only [Option.bind_some, fat16ReadInternalFromStream_eq_pieces fuel]
          generalize fat16ReadPieces image p fuel cluster _ _ = rest
          split_ifs
          all_goals cases rest <;> simp

/-! ## Where the pieces begin -/

/-- The position of a cluster, exactly. -/
def dataPos (p : FatPrivate) (cluster : Int) : Int :=
  (p.rootDirectory.endingSectorPos + (cluster - 2) * p.header.sectorsPerCluster) * sectorSize

/-- The position for an offset of the first cluster. -/
def startPos (p : FatPrivate) (cluster offset : Int) : Int :=
  wrapInt (dataPos p cluster + offset.tmod (clusterSize p))

theorem wrapInt_startPos (p : FatPrivate) (cluster offset : Int) :
    wrapInt (startPos p cluster offset) = startPos p cluster offset := wrapInt_wrapInt _

/-- The sector of a cluster is exact as far as its position is. -/
theorem wrapInt_clusterToSector (p : FatPrivate) (cluster x : Int) :
    wrapInt (fat16ClusterToSector p cluster * sectorSize + x) =
      wrapInt (dataPos p cluster + x) := by
  have hwrap (a : Int) : wrapInt (wrapInt a * sectorSize + x) = wrapInt (a * sectorSize + x) := by
    unfold sectorSize wrapInt asSigned asUnsigned
    omega
  exact hwrap _

theorem fat16StartingPos_eq {cluster offset : Int} (hpos : 0 < clusterSize p)
    (hcluster : 0 ≤ cluster) : fat16StartingPos image p cluster offset =
      some (if offset < clusterSize p then .ok (startPos p cluster offset)
        else .error (- EIO)) := by
  have hsize := sizeOfClusterBytes_eq p
  rw [fat16StartingPos, fat16GetClusterForOffset_eq (by omega), hsize]
  split_ifs with hlt
  · simp only [Option.bind_eq_bind, Option.bind_some, not_lt.mpr hcluster, if_false]
    rw [wrapInt_clusterToSector]
    rfl
  · rfl

variable {fuel : ℕ} {cluster offset total : Int}

/-- A read behind the first cluster. -/
theorem fat16ReadPieces_error (hpos : 0 < clusterSize p) (hcluster : 0 ≤ cluster)
    (hle : clusterSize p ≤ offset) :
    fat16ReadPieces image p (fuel + 1) cluster offset total = some (- EIO, []) := by
  rw [fat16ReadPieces, fat16StartingPos_eq hpos hcluster, if_neg (not_lt.mpr hle)]
  rfl

/-- The first piece, and those that a read of more than a cluster goes on with. -/
theorem fat16ReadPieces_ok (hpos : 0 < clusterSize p) (hcluster : 0 ≤ cluster)
    (hlt : offset < clusterSize p) (hread : Readable (startPos p cluster offset)) :
    fat16ReadPieces image p (fuel + 1) cluster offset total =
      if (clusterSize p : Int) < total then
        (fat16ReadPieces image p fuel cluster (wrapInt (offset + clusterSize p))
          (total - clusterSize p)).map fun r => (r.1,
            ⟨startPos p cluster offset, bytesAt image (startPos p cluster offset) (clusterSize p)⟩
              :: r.2)
      else some (0, [⟨startPos p cluster offset,
        bytesAt image (startPos p cluster offset) total.toNat⟩]) := by
  rw [fat16ReadPieces, fat16StartingPos_eq hpos hcluster, if_pos hlt]
  simp only [Option.bind_eq_bind, Option.bind_some, sizeOfClusterBytes_eq, diskstreamerSeek]
  rw [diskstreamerRead_bytesAt image (wrapInt_startPos p cluster offset) fun _ => hread]
  split_ifs with hmore hrest hrest
  · rw [Option.bind_some, Int.toNat_natCast]
    cases fat16ReadPieces image p fuel cluster _ _ <;> rfl
  · omega
  · omega
  · rfl

/-- Before the sector buffer. -/
theorem fat16ReadPieces_none (hpos : 0 < clusterSize p) (hcluster : 0 ≤ cluster)
    (hlt : offset < clusterSize p) (htotal : 0 < total)
    (hread : ¬Readable (startPos p cluster offset)) :
    fat16ReadPieces image p (fuel + 1) cluster offset total = none := by
  rw [fat16ReadPieces, fat16StartingPos_eq hpos hcluster, if_pos hlt]
  simp only [Option.bind_eq_bind, Option.bind_some, sizeOfClusterBytes_eq, diskstreamerSeek]
  rw [diskstreamerRead_eq_none image (by split_ifs <;> omega) hread]
  rfl

theorem Piece.bytes_of_read {piece : Piece} {n : ℕ}
    (h : piece.bytes = bytesAt image piece.pos n) :
    piece.bytes = piece.sources.map (byteAt image) := by
  rw [Piece.sources, List.map_map, h, length_bytesAt]
  rfl

/-- Every byte of a piece is that of the disk at its source. -/
theorem fat16ReadPieces_bytes : ∀ {fuel : ℕ} {cluster offset total res : Int}
    {pieces : List Piece}, fat16ReadPieces image p fuel cluster offset total = some (res, pieces) →
    ∀ piece ∈ pieces, piece.bytes = piece.sources.map (byteAt image)
  | 0, _, _, _, _, _, h => nomatch h
  | fuel + 1, cluster, offset, total, res, pieces, h => by
    simp only [fat16ReadPieces, fat16StartingPos, Option.bind_eq_bind,
      Option.bind_eq_some_iff] at h
    obtain ⟨start, ⟨clusterToUse, -, hstart⟩, h⟩ := h
    split_ifs at hstart
    · obtain rfl := Option.some.inj hstart
      obtain ⟨-, rfl⟩ := Prod.mk.inj (Option.some.inj h)
      exact fun _ hmem => nomatch hmem
    · obtain rfl := Option.some.inj hstart
      simp only [Option.bind_eq_some_iff, diskstreamerSeek] at h
      obtain ⟨⟨bytes, _⟩, hread, h⟩ := h
      have hbytes := diskstreamerRead_bytes image (wrapInt_wrapInt _) hread
      intro piece hmem
      by_cases hmore : sizeOfClusterBytes p < total
      · rw [if_pos hmore] at hbytes h
        rw [if_pos (by omega), Option.bind_eq_some_iff] at h
        obtain ⟨⟨res', rest⟩, hrest, h⟩ := h
        obtain ⟨-, rfl⟩ := Prod.mk.inj (Option.some.inj h)
        rcases List.mem_cons.mp hmem with rfl | hmem
        · exact Piece.bytes_of_read hbytes
        · exact fat16ReadPieces_bytes hrest piece hmem
      · rw [if_neg hmore] at hbytes h
        rw [if_neg (by omega)] at h
        obtain ⟨-, rfl⟩ := Prod.mk.inj (Option.some.inj h)
        obtain rfl := List.mem_singleton.mp hmem
        exact Piece.bytes_of_read hbytes

/-! ## Staying in the cluster -/

/-- In a successful read every byte comes from the cluster that is looked up for its offset
in the file, from the place inside it that the offset has. A read that begins at a position
where a stream cannot read has no result, so nothing is asked of it. -/
def StaysInClusters (image : DiskImage) (p : FatPrivate) (cluster offset total : ℕ) : Prop :=
  ∀ pieces, fat16ReadPieces image p (total + 1) cluster offset total = some (0, pieces) →
    ∀ j < total, ∃ c : ℕ, fat16GetClusterForOffset image p cluster (offset + j : ℕ) =
      some (c : Int) ∧
      (pieces.flatMap Piece.sources)[j]? = some (dataPos p c + ((offset + j) % clusterSize p : ℕ))

/-- The positions of `n` bytes from `pos` on fit an `int`. -/
def FitsInt (pos : Int) (n : ℕ) : Prop := -2147483648 ≤ pos ∧ pos + n ≤ 2147483648

/-- A read that stays in the first cluster for its length. -/
theorem fat16ReadPieces_within (image : DiskImage) (fuel : ℕ) {offset total : ℕ}
    (hcluster : 0 ≤ cluster)
    (hlt : offset < clusterSize p) (hle : total ≤ clusterSize p)
    (hread : Readable (startPos p cluster offset)) :
    fat16ReadPieces image p (fuel + 1) cluster offset total = some (0,
      [⟨startPos p cluster offset, bytesAt image (startPos p cluster offset) total⟩]) := by
  rw [fat16ReadPieces_ok (by omega) hcluster (by omega) hread, if_neg (by omega), Int.toNat_natCast]

/-- A read of more than a cluster from the first cluster on fails with its second piece. -/
theorem fat16ReadPieces_beyond {offset total : ℕ} (hcluster : 0 ≤ cluster)
    (hsectors : p.header.sectorsPerCluster < 256) (hlt : offset < clusterSize p)
    (hmore : clusterSize p < total) (pieces : List Piece) :
    fat16ReadPieces image p (fuel + 2) cluster offset total ≠ some (0, pieces) := by
  have hsize : clusterSize p < 131072 := by
    unfold clusterSize sectorSize
    omega
  by_cases hread : Readable (startPos p cluster offset)
  · rw [fat16ReadPieces_ok (by omega) hcluster (by omega) hread, if_pos (by omega),
      wrapInt_of_range (by omega) (by omega),
      fat16ReadPieces_error (by omega) hcluster (by omega)]
    simp [ EIO]
  · rw [fat16ReadPieces_none (by omega) hcluster (by omega) (by omega) hread]
    simp

theorem startPos_of_lt {offset : ℕ} (hlt : offset < clusterSize p) :
    startPos p cluster offset = wrapInt (dataPos p cluster + offset) := by
  rw [startPos, Int.tmod_eq_emod_of_nonneg (by omega), Int.emod_eq_of_lt (by omega) (by omega)]

theorem fitsInt_iff {pos : Int} {n : ℕ} (hn : 1 ≤ n) :
    FitsInt pos n ↔ ∀ j < n, wrapInt (pos + j) = pos + j := by
  constructor
  · rintro ⟨hlo, hhi⟩ j hj
    exact wrapInt_of_range (by omega) (by omega)
  · intro h
    have hfirst := wrapInt_bounds (pos + (0 : ℕ))
    rw [h 0 (by omega)] at hfirst
    have hlast := wrapInt_bounds (pos + (n - 1 : ℕ))
    rw [h (n - 1) (by omega)] at hlast
    unfold FitsInt
    omega

/-- Reads stay in their clusters exactly if they do not succeed, because they begin behind the
first cluster, are longer than a cluster or begin where a stream cannot read, or if they end
inside the first cluster at positions that an `int` can hold. -/
theorem staysInClusters_iff (image : DiskImage) (p : FatPrivate) (cluster offset total : ℕ)
    (hsectors : p.header.sectorsPerCluster < 256) (htotal : 1 ≤ total) :
    StaysInClusters image p cluster offset total ↔
      clusterSize p ≤ offset ∨ clusterSize p < total ∨ ¬Readable (startPos p cluster offset) ∨
        offset + total ≤ clusterSize p ∧ FitsInt (dataPos p cluster + offset) total := by
  have hcluster : (0 : Int) ≤ cluster := Int.natCast_nonneg _
  rcases Nat.eq_zero_or_pos (clusterSize p) with h0 | hpos
  · refine iff_of_true (fun pieces h => ?_) (.inl (by omega))
    rw [fat16ReadPieces, fat16StartingPos, fat16GetClusterForOffset, sizeOfClusterBytes_eq, h0] at h
    cases h
  by_cases hlt : offset < clusterSize p
  swap
  · refine iff_of_true (fun pieces h => ?_) (.inl (by omega))
    rw [fat16ReadPieces_error hpos hcluster (by omega)] at h
    simp [ EIO] at h
  rw [or_iff_right (by omega)]
  by_cases hmore : clusterSize p < total
  · refine iff_of_true (fun pieces h => ?_) (.inl hmore)
    obtain ⟨fuel, rfl⟩ : ∃ fuel, total = fuel + 1 := ⟨total - 1, by omega⟩
    exact absurd h (fat16ReadPieces_beyond hcluster hsectors hlt hmore pieces)
  rw [or_iff_right hmore]
  by_cases hread : Readable (startPos p cluster offset)
  swap
  · refine iff_of_true (fun pieces h => ?_) (.inl hread)
    rw [fat16ReadPieces_none hpos hcluster (by omega) (by omega) hread] at h
    cases h
  rw [or_iff_right (not_not.mpr hread)]
  have hrun := fat16ReadPieces_within image total hcluster hlt
    (not_lt.mp hmore) hread
  have hsource (j : ℕ) (hj : j < total) : ([Piece.mk (startPos p cluster offset)
      (bytesAt image (startPos p cluster offset) total)].flatMap Piece.sources)[j]? =
        some (wrapInt (dataPos p cluster + offset + j)) := by
    simp [Piece.sources, hj, startPos_of_lt hlt, wrapInt_wrapInt_add]
  have hlookup (j : ℕ) : fat16GetClusterForOffset image p cluster (offset + j : ℕ) =
      some (if offset + j < clusterSize p then (cluster : Int) else - EIO) := by
    rw [fat16GetClusterForOffset_eq (by rw [sizeOfClusterBytes_eq]; omega), sizeOfClusterBytes_eq]
    simp only [Int.ofNat_lt]
  rw [fitsInt_iff htotal]
  constructor
  · intro hstays
    have hall := hstays _ hrun
    have hin (j : ℕ) (hj : j < total) : offset + j < clusterSize p := by
      obtain ⟨c, hc, -⟩ := hall j hj
      by_contra hout
      rw [hlookup, if_neg hout, Option.some.injEq] at hc
      unfold EIO at hc
      omega
    refine ⟨by have := hin (total - 1) (by omega); omega, fun j hj => ?_⟩
    obtain ⟨c, hc, hs⟩ := hall j hj
    rw [hlookup, if_pos (hin j hj), Option.some.injEq] at hc
    obtain rfl : cluster = c := Int.ofNat_inj.mp hc
    rw [hsource j hj, Nat.mod_eq_of_lt (hin j hj), Option.some.injEq] at hs
    rw [hs]
    push_cast
    ring
  · rintro ⟨hend, hfits⟩ pieces h j hj
    rw [hrun] at h
    obtain rfl := (Prod.mk.inj (Option.some.inj h)).2
    refine ⟨cluster, by rw [hlookup, if_pos (by omega)], ?_⟩
    rw [hsource j hj, hfits j hj, Nat.mod_eq_of_lt (by omega)]
    push_cast
    rw [Int.add_assoc]

/-- Two bytes in the middle of a cluster. -/
theorem staysInClusters_middle : StaysInClusters (chainVolume [] []) smallPrivate 2 5 2 :=
  (staysInClusters_iff _ _ _ _ _ (by decide) (by decide)).mpr
    (.inr (.inr (.inr ⟨by decide, by decide, by decide⟩)))

/-- Of two bytes over the edge of a cluster the second comes from the sector behind it. -/
theorem not_staysInClusters_edge : ¬∀ (image : DiskImage) (p : FatPrivate)
    (cluster offset total : ℕ), p.header.sectorsPerCluster < 256 → 1 ≤ total →
    StaysInClusters image p cluster offset total := by
  intro hall
  obtain ⟨c, hc, -⟩ := hall (chainVolume [] []) smallPrivate 2 511 2 (by decide) (by decide) _
    (fat16ReadPieces_within _ _ (by decide) (by decide) (by decide) (by decide)) 1 (by decide)
  rw [fat16GetClusterForOffset_eq (by decide), if_neg (by decide), Option.some.injEq] at hc
  unfold EIO at hc
  omega

end Hyperion
