import Hyperion.DirectoryScan
import Hyperion.LoadFailure
import Hyperion.ReadPieces

/-!
# Loading a subdirectory

`fat16_load_fat_directory` counts the live entries in a straight line from the first cluster
on, and reads so many entries from the beginning of the directory. A directory that it frees
because of an error is returned all the same. `fat16LoadFatDirectory_clean_iff` says when it
does what it is for.

What it is for is stated on the chain of clusters. `contentByte` is the byte at an offset of the
chain, and `Subdirectory` the number of its entries before the terminator or the end of the chain.
A load is clean (`LoadsCleanly`) if it returns 0 and leaves the table of the heap as it was, or
returns a directory that is allocated and has the entries (`DirectoryLoaded`).

For a subdirectory the condition is that there is no block for it, so that nothing is begun, or that
its entries lie in the first cluster and as many are counted as there are, with room for their array
(`CountedInCluster`). More than a cluster is never read from a chain (`fat16ReadInternal_eq_iff`),
and with deleted entries the count is short of what there is to read.
-/

namespace Hyperion

open Partial FreeRun

/-! ## The content of a subdirectory -/

section Content

variable (image : DiskImage) (p : FatPrivate) (cluster : ℕ)

/-- The byte at an offset of a chain of clusters, if the chain reaches so far. -/
def contentByte (i : ℕ) : Option UInt8 :=
  (clusterBehind image p cluster (i / clusterSize p)).map fun c =>
    byteAt image (dataPos p c + (i % clusterSize p : ℕ))

/-- The subdirectory that begins with the cluster has `n` entries : the next one is the
terminator, or the chain ends there. -/
structure Subdirectory (n : ℕ) : Prop where
  first : 2 ≤ cluster
  entries : ∀ i < n, ∃ b, contentByte image p cluster (directoryItemSize * i) = some b ∧ b ≠ 0
  ending : ∀ b, contentByte image p cluster (directoryItemSize * n) = some b → b = 0

/-- The subdirectory has `n` entries, which lie in its first cluster where the code looks for
them, and as many are live up to the first terminator on the disk behind the beginning. -/
structure CountedInCluster (n : ℕ) : Prop where
  subdirectory : Subdirectory image p cluster n
  sectors : 0 < p.header.sectorsPerCluster
  inside : directoryItemSize * n ≤ clusterSize p
  inPlace : ∀ i < directoryItemSize * n,
    byteAt image (wrapInt (dataPos p cluster + i)) = byteAt image (dataPos p cluster + i)
  counted : ∃ m, EndsAt image (wrapInt (dataPos p cluster)) m ∧
    liveAmong image (wrapInt (dataPos p cluster)) m = n

variable {image p cluster}

theorem contentByte_of_lt {i : ℕ} (hi : i < clusterSize p) :
    contentByte image p cluster i = some (byteAt image (dataPos p cluster + i)) := by
  rw [contentByte, Nat.div_eq_of_lt hi, Nat.mod_eq_of_lt hi]
  rfl

/-- What is read from the beginning of the directory are its bytes exactly if they lie where
the code looks for them. -/
theorem map_bytesAt_eq_iff {n : ℕ} (hn : n ≤ clusterSize p) :
    (bytesAt image (wrapInt (dataPos p cluster)) n).map some =
        (List.range n).map (contentByte image p cluster) ↔
      ∀ i < n, byteAt image (wrapInt (dataPos p cluster + i)) =
        byteAt image (dataPos p cluster + i) := by
  rw [bytesAt, List.map_map, List.map_inj_left]
  refine forall_congr' fun i => ⟨fun h hi => ?_, fun h hi => ?_⟩
  · have := h (List.mem_range.mpr hi)
    rw [contentByte_of_lt (by omega), Function.comp_apply, wrapInt_wrapInt_add] at this
    exact Option.some.inj this
  · have hi := List.mem_range.mp hi
    rw [contentByte_of_lt (by omega), Function.comp_apply, wrapInt_wrapInt_add, h hi]

/-- The count begins where the first cluster is read. -/
theorem fat16GetTotalItemsForDirectory_cluster {t : Int} :
    fat16GetTotalItemsForDirectory image (fat16ClusterToSector p cluster) = some t ↔
      ∃ m, EndsAt image (wrapInt (dataPos p cluster)) m ∧
        t = liveAmong image (wrapInt (dataPos p cluster)) m := by
  have hpos := wrapInt_clusterToSector p cluster 0
  rw [Int.add_zero, Int.add_zero] at hpos
  rw [fat16GetTotalItemsForDirectory_eq_some_iff, hpos]

end Content

/-! ## Reading from the beginning on -/

section Read

variable {image : DiskImage} {p : FatPrivate} {cluster : ℕ} {total : Int} {bytes : List UInt8}

theorem startPos_zero (p : FatPrivate) (cluster : Int) :
    startPos p cluster 0 = wrapInt (dataPos p cluster) := by
  rw [startPos, Int.zero_tmod, Int.add_zero]

/-- Nothing is read of a volume whose clusters have no sectors. -/
theorem clusterSize_of_read (h : fat16ReadInternal image p cluster 0 total = some (0, bytes)) :
    0 < clusterSize p := by
  rw [fat16ReadInternal, fat16ReadInternalFromStream, Option.bind_eq_bind,
    Option.bind_eq_some_iff] at h
  obtain ⟨c, hc, -⟩ := h
  have hpos := (fat16GetClusterForOffset_eq_some hc).1
  rw [sizeOfClusterBytes_eq] at hpos
  omega

/-- A read from the beginning of a chain succeeds for at most a cluster. -/
theorem fat16ReadInternal_eq_iff (hsectors : p.header.sectorsPerCluster < 256)
    (hread : Readable (wrapInt (dataPos p cluster))) :
    fat16ReadInternal image p cluster 0 total = some (0, bytes) ↔ 0 < clusterSize p ∧
      total ≤ clusterSize p ∧ bytes = bytesAt image (wrapInt (dataPos p cluster)) total.toNat := by
  rcases Nat.eq_zero_or_pos (clusterSize p) with h0 | hpos
  · exact iff_of_false (fun h => (clusterSize_of_read h).ne' h0) fun h => h.1.ne' h0
  rw [fat16ReadInternal, fat16ReadInternalFromStream_eq_pieces]
  have hcluster : (0 : Int) ≤ cluster := Int.natCast_nonneg _
  have hzero : (0 : Int) < clusterSize p := by omega
  rw [← startPos_zero] at hread ⊢
  rcases le_or_gt total (clusterSize p) with hle | hmore
  · rw [fat16ReadPieces_ok hpos hcluster hzero hread, if_neg (not_lt.mpr hle)]
    simp [hpos, hle, eq_comm]
  · obtain ⟨n, rfl⟩ := Int.eq_ofNat_of_zero_le (hzero.le.trans hmore.le)
    obtain ⟨fuel, rfl⟩ : ∃ fuel, n = fuel + 1 := ⟨n - 1, by omega⟩
    refine iff_of_false (fun h => ?_) fun h => absurd h.2.1 (not_le.mpr hmore)
    obtain ⟨⟨res, pieces⟩, hrun, hx⟩ := Option.map_eq_some_iff.mp h
    obtain ⟨rfl, -⟩ := Prod.mk.inj hx
    have hbeyond : fat16ReadPieces image p (fuel + 2) cluster (0 : ℕ) (fuel + 1 : ℕ) ≠
        some (0, pieces) := fat16ReadPieces_beyond hcluster hsectors hpos (by omega) pieces
    exact hbeyond hrun

/-- The entries are read exactly if they are counted in the first cluster. -/
theorem countedInCluster_iff_read {n m : ℕ} (hsectors : p.header.sectorsPerCluster < 256)
    (hends : EndsAt image (wrapInt (dataPos p cluster)) m)
    (hlive : liveAmong image (wrapInt (dataPos p cluster)) m = n) :
    CountedInCluster image p cluster n ↔ Subdirectory image p cluster n ∧ ∃ bytes,
      fat16ReadInternal image p cluster 0 (asSigned (directoryItemSize * n : ℕ)) = some (0, bytes) ∧
        bytes.map some = (List.range (directoryItemSize * n)).map
          (contentByte image p cluster) := by
  have hread : Readable (wrapInt (dataPos p cluster)) :=
    entryPos_zero (wrapInt_wrapInt _) ▸ hends.readable 0 (Nat.zero_le m)
  have hsize : clusterSize p < 131072 := by
    unfold clusterSize sectorSize
    omega
  constructor
  · intro h
    have hinside := h.inside
    have hsigned : asSigned (directoryItemSize * n : ℕ) = (directoryItemSize * n : ℕ) :=
      asSigned_of_lt (by omega)
    refine ⟨h.subdirectory, _, ?_, (map_bytesAt_eq_iff hinside).mpr h.inPlace⟩
    rw [hsigned, fat16ReadInternal_eq_iff hsectors hread, Int.toNat_natCast]
    exact ⟨clusterSize_pos.mpr h.sectors, by omega, rfl⟩
  · rintro ⟨hsub, bytes, hrun, hbytes⟩
    obtain ⟨hpos, hle, rfl⟩ := (fat16ReadInternal_eq_iff hsectors hread).mp hrun
    have hlength : (asSigned (directoryItemSize * n : ℕ)).toNat = directoryItemSize * n := by
      simpa using congrArg List.length hbytes
    have hinside : directoryItemSize * n ≤ clusterSize p := by omega
    rw [hlength] at hbytes
    exact ⟨hsub, clusterSize_pos.mp hpos, hinside, (map_bytesAt_eq_iff hinside).mp hbytes,
      m, hends, hlive⟩

end Read

/-! ## The heap -/

section Heap

variable {k k' : Kernel} {a b n size : ℕ}

/-- Block `b` is the first free one. -/
def Kernel.FirstFree (k : Kernel) (b : ℕ) : Prop := FirstRun k.table.IsFree heapTotalBlocks 1 b

/-- There are as many free blocks in a row as the request needs, or the last block is free. -/
def Kernel.HasRoom (k : Kernel) (size : ℕ) : Prop :=
  0 < requestBlocks size ∧ HasRun k.table.IsFree heapTotalBlocks (requestBlocks size) ∨
    k.table.IsFree (heapTotalBlocks - 1)

theorem Kernel.kzalloc_of_firstFree (h : k.FirstFree b) (hpos : 1 ≤ size) (hle : size ≤ 4096) :
    kzalloc size k = some (blockAddr b, k.allocated b size) := by
  have hlt : b < heapTotalBlocks := by have := h.inside; omega
  have hfree : k.table.IsFree b := h.run b le_rfl (by omega)
  rcases k.kzalloc_one hpos hle with ⟨c, -, hc, hfirst, he⟩ | ⟨-, hnone⟩
  · rcases Nat.lt_trichotomy b c with hbc | rfl | hcb
    · exact absurd hfree (hfirst b hbc)
    · exact he
    · refine absurd (fun i hi hi' => ?_) (h.first c hcb)
      obtain rfl : i = c := by omega
      exact hc
  · exact absurd hfree (hnone b hlt)

/-- With no free block a small request is answered by null. -/
theorem Kernel.firstFree_or_full (k : Kernel) (hpos : 1 ≤ size) (hle : size ≤ 4096) :
    (∃ b, k.FirstFree b) ∨ k.Full size := by
  have hone := requestBlocks_one hpos hle
  rcases kzalloc_cases k size with ⟨b, -, -, hrun, -⟩ | ⟨b, hb, hno, hlast, -⟩ | ⟨-, hno, hlast⟩
  · rw [hone] at hrun
    exact .inl ⟨b, hrun⟩
  · refine absurd ⟨b, by omega, fun i hi hi' => hlast.run i hi (by omega)⟩ (hno (by omega))
  · exact .inr ⟨hno (by omega), hlast⟩

theorem Kernel.FirstFree.not_full (h : k.FirstFree b) (hpos : 1 ≤ size) (hle : size ≤ 4096) :
    ¬k.Full size := fun hfull => hfull.1 (requestBlocks_one hpos hle ▸ h.hasRun)

/-- A request of at most the size of the heap is served exactly if there is room. -/
theorem Kernel.kzalloc_served_iff (hsize : size ≤ 104857600) :
    (∃ q k', kzalloc size k = some (q, k') ∧ q ≠ 0) ↔ k.HasRoom size := by
  have hserved {b : ℕ} (hb : b < heapTotalBlocks) (he : kzalloc size k =
      if 4294967296 < blockAddr b + size then none else some (blockAddr b, k.allocated b size)) :
      ∃ q k', kzalloc size k = some (q, k') ∧ q ≠ 0 := by
    have := blockAddr_lt hb
    rw [if_neg (by omega)] at he
    exact ⟨_, _, he, blockAddr_pos b⟩
  rcases kzalloc_cases k size with
    ⟨b, hb, hpos, hrun, he⟩ | ⟨b, hb, -, hlast, he⟩ | ⟨he, hno, hlast⟩
  · exact iff_of_true (hserved hb he) (.inl ⟨hpos, hrun.hasRun⟩)
  · exact iff_of_true (hserved hb he) (.inr (hlast.run _ (by omega) (by omega)))
  · refine iff_of_false ?_ fun h => h.elim (fun h => hno h.1 h.2) hlast
    rintro ⟨q, k', he', hq⟩
    rw [he] at he'
    exact hq (congrArg Prod.fst (Option.some.inj he')).symm

/-- A block that has been freed is not allocated. -/
theorem Kernel.Owns.not_owns_release (h : k.Owns a 1) : ¬(k.release a).Owns a n := by
  obtain ⟨b, rfl, hb⟩ := h
  rintro ⟨c, hbc, hc⟩
  obtain rfl := blockAddr_inj.mp hbc
  refine hc.not_isFree_start ?_
  rw [HeapTable.IsFree, release_table_single hb.lt (.inr (hb.byte 0 hb.pos hb.lt)), if_pos rfl]

end Heap

/-! ## Loading -/

section Load

variable {k k' k₁ : Kernel} {p : FatPrivate} {item : List UInt8} {a b n : ℕ}

/-- The directory at `a` is allocated and its item array has the entries of the subdirectory. -/
structure DirectoryLoaded (image : DiskImage) (p : FatPrivate) (cluster : ℕ) (k' : Kernel)
    (a : ℕ) (d : FatDirectory) (n : ℕ) : Prop where
  subdirectory : Subdirectory image p cluster n
  total : d.total = n
  entries : d.bytes.map some =
    (List.range (directoryItemSize * n)).map (contentByte image p cluster)
  directory : k'.Owns a 1
  items : 0 < n → k'.Owns d.item (requestBlocks (directoryItemSize * n))

/-- The load returns 0 and leaves the heap block table as it was, or it returns the directory. -/
def LoadsCleanly (k : Kernel) (p : FatPrivate) (item : List UInt8) : Prop :=
  ∃ u k', fat16LoadFatDirectory item k = some (u, k') ∧
    match u with
    | .null => k'.heapTable = k.heapTable
    | .directory a d => ∃ n, DirectoryLoaded k.image p (fat16GetFirstCluster item) k' a d n
    | .item _ _ => False

theorem fat16LoadFatDirectory_file (hp : k.disk.fsPrivate = some p)
    (hdir : itemIsSubdirectory item = false) :
    fat16LoadFatDirectory item k = some (.null, k) := by
  simp [fat16LoadFatDirectory, fsPrivate, defined, hp, hdir, run_bind, run_get, run_pure,
    fat16FreeDirectory]

theorem fat16LoadFatDirectory_null (hp : k.disk.fsPrivate = some p)
    (hdir : itemIsSubdirectory item = true) (hself : kzalloc 16 k = some (0, k)) :
    fat16LoadFatDirectory item k = some (.null, k) := by
  simp [fat16LoadFatDirectory, fsPrivate, defined, hp, hdir, run_bind, run_get, run_pure,
    fat16FreeDirectory, hself]

theorem fat16FreeDirectory_run (k : Kernel) (a : ℕ) (d : FatDirectory) :
    fat16FreeDirectory (.directory a d) k =
      some ((), (if d.item = 0 then k else k.release d.item).release a) := by
  by_cases h : d.item = 0
  · simp only [fat16FreeDirectory, h, ne_eq, not_true, if_false, if_true]
    rfl
  · simp only [fat16FreeDirectory, h, ne_eq, not_false_eq_true, if_false, if_true]
    rfl

/-- What is done once the directory is allocated. -/
theorem fat16LoadFatDirectory_run (hp : k.disk.fsPrivate = some p)
    (hdir : itemIsSubdirectory item = true) (hself : kzalloc 16 k = some (a, k₁)) (ha : a ≠ 0) :
    fat16LoadFatDirectory item k =
      (fat16GetTotalItemsForDirectory k.image
        (fat16ClusterToSector p (fat16GetFirstCluster item))).bind fun total =>
      (kzalloc (asUnsigned (total * directoryItemSize)) k₁).bind fun r =>
        if r.1 = 0 then some (.directory a ⟨0, [], total, 0, 0⟩, r.2.release a)
        else (fat16ReadInternal k.image p (fat16GetFirstCluster item) 0
          (asSigned (asUnsigned (total * directoryItemSize)))).map fun s =>
            (.directory a ⟨r.1, s.2, total, 0, 0⟩,
              if s.1 = 0 then r.2 else (r.2.release r.1).release a) := by
  have hprivate : fsPrivate k = some (p, k) := by
    simp [fsPrivate, defined, hp, run_bind, run_get, run_pure]
  simp only [fat16LoadFatDirectory, run_bind, hprivate, Option.bind_some, run_get, hdir,
    Bool.not_true, Bool.false_eq_true, if_false, hself, ha]
  cases fat16GetTotalItemsForDirectory k.image (fat16ClusterToSector p (fat16GetFirstCluster item))
  with
  | none => rfl
  | some total =>
    simp only [defined, run_pure, Option.bind_some]
    cases kzalloc (asUnsigned (total * directoryItemSize)) k₁ with
    | none => rfl
    | some r =>
      simp only [Option.bind_some]
      by_cases hr : r.1 = 0
      · simp only [hr, if_true, run_bind, fat16FreeDirectory_run, Option.bind_some, run_pure]
      · simp only [hr, if_false, run_bind]
        cases fat16ReadInternal k.image p (fat16GetFirstCluster item) 0
            (asSigned (asUnsigned (total * directoryItemSize))) with
        | none => rfl
        | some s =>
          simp only [run_pure, Option.bind_some, Option.map_some]
          by_cases hs : s.1 = 0
          · simp only [hs, ne_eq, not_true, if_false, if_true, run_pure]
          · simp only [hs, hr, ne_eq, not_false_eq_true, if_true, if_false,
              fat16FreeDirectory_run, Option.bind_some, run_pure, run_bind]

/-- What lies in a cluster is smaller than the heap. -/
theorem CountedInCluster.size_le {image : DiskImage} {cluster : ℕ}
    (h : CountedInCluster image p cluster n) (hsectors : p.header.sectorsPerCluster < 256) :
    directoryItemSize * n ≤ 104857600 := by
  have hinside := h.inside
  unfold clusterSize sectorSize at hinside
  omega

/-- The size of an array for the live entries fits its type. -/
theorem asUnsigned_liveAmong {image : DiskImage} {pos : Int} {m : ℕ} (h : EndsAt image pos m)
    (hlive : liveAmong image pos m = n) :
    asUnsigned ((n : Int) * directoryItemSize) = directoryItemSize * n := by
  have hlt := h.lt
  have hle := hlive ▸ liveAmong_le image pos m
  have hfits : n * directoryItemSize < 4294967296 := by
    unfold directoryItemSize
    omega
  rw [← Int.natCast_mul, asUnsigned_natCast hfits, Nat.mul_comm]

/-- With a block for the directory the rest decides. -/
theorem loadsCleanly_iff_of_firstFree (hp : k.disk.fsPrivate = some p)
    (hsectors : p.header.sectorsPerCluster < 256) (hdir : itemIsSubdirectory item = true)
    (hb : k.FirstFree b) : LoadsCleanly k p item ↔
      ∃ n, CountedInCluster k.image p (fat16GetFirstCluster item) n ∧
        (k.allocated b 16).HasRoom (directoryItemSize * n) := by
  have hself := Kernel.kzalloc_of_firstFree hb (by decide : 1 ≤ 16) (by decide)
  have hrun := fat16LoadFatDirectory_run hp hdir hself (blockAddr_pos b)
  have hblock : b < heapTotalBlocks := by have := hb.inside; omega
  have howns : (k.allocated b 16).Owns (blockAddr b) 1 :=
    Kernel.allocated_owns_one (by decide) (by decide) hblock
  constructor
  · rintro ⟨u, k', hload, hclean⟩
    rw [hrun] at hload
    obtain ⟨t, ht, hload⟩ := Option.bind_eq_some_iff.mp hload
    obtain ⟨m, hends, rfl⟩ := fat16GetTotalItemsForDirectory_cluster.mp ht
    rw [asUnsigned_liveAmong hends rfl] at hload
    obtain ⟨⟨q, k₂⟩, hq, hload⟩ := Option.bind_eq_some_iff.mp hload
    rcases (Kernel.kzalloc_answers False.elim).of_eq hq with ⟨rfl, rfl, -⟩ | ⟨b₂, hans, rfl, rfl⟩
    · rw [if_pos rfl, Option.some.injEq] at hload
      obtain ⟨rfl, rfl⟩ := Prod.mk.inj hload
      obtain ⟨n, hloaded⟩ := hclean
      exact absurd hloaded.directory howns.not_owns_release
    · rw [if_neg (blockAddr_pos b₂)] at hload
      obtain ⟨⟨res, bytes⟩, hread, hload⟩ := Option.map_eq_some_iff.mp hload
      obtain ⟨rfl, rfl⟩ := Prod.mk.inj hload
      obtain ⟨n, hloaded⟩ := hclean
      by_cases hres : res = 0
      · subst hres
        obtain rfl : liveAmong _ _ m = n := Int.ofNat_inj.mp hloaded.total
        have hcounted := (countedInCluster_iff_read hsectors hends rfl).mpr
          ⟨hloaded.subdirectory, bytes, hread, hloaded.entries⟩
        exact ⟨_, hcounted, (Kernel.kzalloc_served_iff (hcounted.size_le hsectors)).mp
          ⟨_, _, hq, blockAddr_pos b₂⟩⟩
      · refine absurd hloaded.directory ?_
        rw [if_neg hres]
        exact ((hans.ext.release hans.fresh).owns howns).not_owns_release
  · rintro ⟨n, hcounted, hroom⟩
    obtain ⟨m, hends, hlive⟩ := hcounted.counted
    obtain ⟨q, k₂, hq, hne⟩ := (Kernel.kzalloc_served_iff (hcounted.size_le hsectors)).mpr hroom
    obtain ⟨hsub, bytes, hread, hbytes⟩ :=
      (countedInCluster_iff_read hsectors hends hlive).mp hcounted
    have ht := fat16GetTotalItemsForDirectory_cluster.mpr ⟨m, hends, congrArg Nat.cast hlive.symm⟩
    rcases (Kernel.kzalloc_answers False.elim).of_eq hq with ⟨rfl, -, -⟩ | ⟨b₂, hans, rfl, rfl⟩
    · exact absurd rfl hne
    have hload : fat16LoadFatDirectory item k = some (.directory (blockAddr b)
        ⟨blockAddr b₂, bytes, n, 0, 0⟩,
          (k.allocated b 16).allocated b₂ (directoryItemSize * n)) := by
      rw [hrun, ht, Option.bind_some, asUnsigned_liveAmong hends hlive, hq, Option.bind_some,
        if_neg hne, hread, Option.map_some, if_pos rfl]
    refine ⟨_, _, hload, _, hsub, rfl, hbytes, hans.ext.owns howns, fun hpos => hans.owns ?_⟩
    exact Nat.mul_pos (by decide) hpos

/-- A directory entry loads cleanly exactly if it is no subdirectory, or there is no free
block, or the entries of the subdirectory are counted in its first cluster and the heap has
room for them behind the block of the directory. -/
theorem fat16LoadFatDirectory_clean_iff (hp : k.disk.fsPrivate = some p)
    (hsectors : p.header.sectorsPerCluster < 256) : LoadsCleanly k p item ↔
    itemIsSubdirectory item = false ∨ k.Full 16 ∨
      ∃ n b, CountedInCluster k.image p (fat16GetFirstCluster item) n ∧ k.FirstFree b ∧
        (k.allocated b 16).HasRoom (directoryItemSize * n) := by
  cases hdir : itemIsSubdirectory item with
  | false =>
    exact iff_of_true ⟨_, _, fat16LoadFatDirectory_file hp hdir, rfl⟩ (.inl rfl)
  | true =>
    rw [or_iff_right (by decide)]
    rcases k.firstFree_or_full (by decide : 1 ≤ 16) (by decide) with ⟨b, hb⟩ | hfull
    · rw [loadsCleanly_iff_of_firstFree hp hsectors hdir hb,
        or_iff_right (hb.not_full (by decide) (by decide))]
      constructor
      · rintro ⟨n, hcounted, hroom⟩
        exact ⟨n, b, hcounted, hb, hroom⟩
      · rintro ⟨n, b', hcounted, hb', hroom⟩
        obtain rfl := FirstRun.unique hb hb'
        exact ⟨n, hcounted, hroom⟩
    · have hnull : kzalloc 16 k = some (0, k) := (Kernel.kzalloc_null_iff (by decide)).mpr hfull
      exact iff_of_true ⟨_, _, fat16LoadFatDirectory_null hp hdir hnull, rfl⟩ (.inl hfull)

end Load

/-! ## Directories in the second cluster of a volume -/

/-- The state in which a volume is mounted whose cluster 2 begins with `data`. -/
def directoryKernel (data : List UInt8) : Kernel := { Kernel.empty with
  image := smallVolume (directoryEntry 68) data
  disk := ⟨true, some smallPrivate⟩ }

/-- A directory with one entry and a terminator. -/
theorem fat16LoadFatDirectory_one :
    LoadsCleanly (directoryKernel (fileEntry 65)) smallPrivate (directoryEntry 68) := by
  have hcluster : fat16GetFirstCluster (directoryEntry 68) = 2 := by decide
  have hlast : (directoryKernel (fileEntry 65)).table.IsFree (heapTotalBlocks - 1) := rfl
  refine (fat16LoadFatDirectory_clean_iff rfl (by decide)).mpr (.inr (.inr ⟨1, 0, ?_, ?_, .inr ?_⟩))
  · rw [hcluster]
    refine ⟨⟨by decide, ?_, ?_⟩, by decide, by decide, by decide +kernel, 1, ?_, by decide +kernel⟩
    · intro i hi
      obtain rfl : i = 0 := by omega
      exact ⟨65, by decide +kernel, by decide⟩
    · intro c hc
      have hzero : contentByte (directoryKernel (fileEntry 65)).image smallPrivate 2
          (directoryItemSize * 1) = some 0 := by decide +kernel
      exact (Option.some.inj (hzero.symm.trans hc)).symm
    · exact ⟨by decide +kernel, by decide +kernel, by decide +kernel⟩
  · exact ⟨by decide, fun _ _ _ => rfl, fun _ h => absurd h (Nat.not_lt_zero _)⟩
  · refine Kernel.allocated_isFree.mpr ⟨hlast, ?_⟩
    rw [requestBlocks_one (by decide) (by decide)]
    decide

/-- The number of entries that have been read. -/
def FatItemUnion.total : FatItemUnion → Int
  | .directory _ d => d.total
  | _ => 0

/-- Of a deleted entry and one behind it only the first is read. -/
theorem fat16LoadFatDirectory_not_always_clean : ¬∀ (k : Kernel) (p : FatPrivate)
    (item : List UInt8), k.disk.fsPrivate = some p → p.header.sectorsPerCluster < 256 →
    LoadsCleanly k p item := by
  intro hall
  let k := directoryKernel (fileEntry 0xE5 ++ fileEntry 66)
  obtain ⟨u, k', hload, hclean⟩ := hall k smallPrivate (directoryEntry 68) rfl (by decide)
  have hrun : (fat16LoadFatDirectory (directoryEntry 68) k).map (fun x => x.1.total) = some 1 := by
    decide +kernel
  rw [hload] at hrun
  have htotal := Option.some.inj hrun
  cases u with
  | null => exact absurd (show (0 : Int) = 1 from htotal) (by decide)
  | item a bytes => exact hclean
  | directory a d =>
    obtain ⟨n, hloaded⟩ := hclean
    have hcluster : fat16GetFirstCluster (directoryEntry 68) = 2 := by decide
    have hsecond : contentByte k.image smallPrivate (fat16GetFirstCluster (directoryEntry 68))
        (directoryItemSize * 1) = some 66 := by
      rw [hcluster]
      decide +kernel
    obtain rfl : n = 1 := Int.ofNat_inj.mp (hloaded.total.symm.trans htotal)
    exact absurd (hloaded.subdirectory.ending _ hsecond) (by decide)

end Hyperion
