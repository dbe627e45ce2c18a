import Hyperion.File

/-!
# Rules for the FAT16 code

When reading a piece of a file or directory fails, and the rules for the steps that the
operations of `fat16.c` are made of.

`diskByte` is the byte at a position of the disk and `bytesAt` what a stream goes over from a
position that may wrap. A stream reads wherever a sector is to be had (`Readable`), on to the end
of what is asked for, and brings those bytes (`diskstreamerRead_bytes`). Before the beginning of a
sector it reads before its buffer, which has no result (`diskstreamerRead_eq_none`).

A read cluster by cluster goes well in the first cluster of the file and nowhere else, as the
cluster behind the first is never found (`fat16GetClusterForOffset_eq_some`,
`fat16ReadInternalFromStream_neg`). The small volume at the end, with one file or one directory,
is what the examples of the other modules are about.
-/

namespace Hyperion

open Partial

/-! ## Steps -/

section Rules

variable {r : Prop} {k : Kernel}

/-- A value that may be missing. -/
@[simp] theorem defined_iff {α : Type} {o : Option α} {Q : α → Kernel → Prop} :
    Meets r (defined o) k Q ↔ (∀ a, o = some a → Q a k) ∧ (o = none → ¬r) := by
  cases o <;> simp [defined]

/-- The volume, if one is mounted. -/
@[simp] theorem fsPrivate_iff {Q : FatPrivate → Kernel → Prop} :
    Meets r fsPrivate k Q ↔
      (∀ p, k.disk.fsPrivate = some p → Q p k) ∧ (k.disk.fsPrivate = none → ¬r) := by
  simp [fsPrivate]

/-- A store through the null pointer has no result. -/
@[simp] theorem storeBytes_iff {p : ℕ} {bs : List UInt8} {Q : Unit → Kernel → Prop} :
    Meets r (storeBytes p bs) k Q ↔
      (p = 0 ∧ bs ≠ [] → ¬r) ∧ (¬(p = 0 ∧ bs ≠ []) → Q () (k.withBytes p bs)) := by
  by_cases h : p = 0 ∧ bs ≠ []
  · simp [Meets, storeBytes, h]
  · have e : storeBytes p bs k = some ((), k.withBytes p bs) := if_neg h
    exact ⟨fun hQ => ⟨fun hp => absurd hp h, fun _ => hQ.of_eq e⟩,
      fun hQ => Meets.of_run_eq e (hQ.2 h)⟩

/-- A slot of the table is written. -/
@[simp] theorem setFileDescriptor_iff {i : ℕ} {d : Option FileDescriptor}
    {Q : Unit → Kernel → Prop} :
    Meets r (setFileDescriptor i d) k Q ↔ Q () { k with
      fileDescriptors := fun j => if j = i then d else k.fileDescriptors j } :=
  Meets.modify_iff

end Rules

/-! ## The bytes of the disk -/

section Disk

variable (image : DiskImage)

/-- The byte at a position of the disk. -/
def diskByte (pos : ℕ) : UInt8 := image (pos / sectorSize : ℕ) (pos % sectorSize)

/-- The `n` bytes from a position on. -/
def diskBytes (pos n : ℕ) : List UInt8 := (List.range n).map fun i => diskByte image (pos + i)

@[simp] theorem length_diskBytes (pos n : ℕ) : (diskBytes image pos n).length = n := by
  simp [diskBytes]

/-- Bytes that follow one another. -/
theorem diskBytes_append (pos m n : ℕ) :
    diskBytes image pos m ++ diskBytes image (pos + m) n = diskBytes image pos (m + n) := by
  simp [diskBytes, List.range_add, Nat.add_assoc]

/-- Within a sector the bytes are those of the sector. -/
theorem diskBytes_sector {pos n : ℕ} (h : pos % sectorSize + n ≤ sectorSize) :
    diskBytes image pos n = (List.range n).map fun i =>
      image (pos / sectorSize : ℕ) (pos % sectorSize + i) := by
  refine List.map_congr_left fun i hi => ?_
  have hi := List.mem_range.mp hi
  unfold sectorSize at h
  have hdiv : (pos + i) / sectorSize = pos / sectorSize := by unfold sectorSize; omega
  have hmod : (pos + i) % sectorSize = pos % sectorSize + i := by unfold sectorSize; omega
  rw [diskByte, hdiv, hmod]

/-- The byte at a position, which may be negative. -/
def byteAt (pos : Int) : UInt8 := image (pos / sectorSize) (pos % sectorSize).toNat

/-- The `n` bytes that a stream at `pos` goes over. -/
def bytesAt (pos : Int) (n : ℕ) : List UInt8 :=
  (List.range n).map fun i : ℕ => byteAt image (wrapInt (pos + i))

@[simp] theorem length_bytesAt (pos : Int) (n : ℕ) : (bytesAt image pos n).length = n := by
  simp [bytesAt]

/-- A stream can read at a position behind the beginning of the disk or of a sector. -/
def Readable (pos : Int) : Prop := 0 ≤ pos ∨ (sectorSize : Int) ∣ pos

instance : DecidablePred Readable := fun _ => inferInstanceAs (Decidable (_ ∨ _))

section Positions

variable {pos : Int}

/-- Also where the position wraps. -/
theorem bytesAt_append (m n : ℕ) :
    bytesAt image pos m ++ bytesAt image (wrapInt (pos + m)) n = bytesAt image pos (m + n) := by
  simp [bytesAt, List.range_add, wrapInt_wrapInt_add, Int.add_assoc]

/-- Within a sector the bytes are those of the sector. -/
theorem bytesAt_sector {n : ℕ} (hpos : wrapInt pos = pos)
    (h : pos % sectorSize + n ≤ sectorSize) : bytesAt image pos n = (List.range n).map fun i =>
      image (pos / sectorSize) ((pos % sectorSize).toNat + i) := by
  refine List.map_congr_left fun i hi => ?_
  have hi := List.mem_range.mp hi
  have hb := wrapInt_bounds pos
  unfold sectorSize at h
  have hw : wrapInt (pos + i) = pos + i := wrapInt_of_range (by omega) (by omega)
  have hdiv : (pos + i) / (sectorSize : Int) = pos / sectorSize := by unfold sectorSize; omega
  have hmod : ((pos + i) % (sectorSize : Int)).toNat = (pos % sectorSize).toNat + i := by
    unfold sectorSize; omega
  rw [byteAt, hw, hdiv, hmod]

/-- At a position where a stream can read, C's division is the floor. -/
theorem Readable.tdiv (h : Readable pos) : pos.tdiv sectorSize = pos / sectorSize := by
  rcases h with h | h
  · exact Int.tdiv_eq_ediv_of_nonneg h
  · exact Int.tdiv_eq_ediv_of_dvd h

/-- And its remainder is not negative. -/
theorem Readable.tmod (h : Readable pos) : pos.tmod sectorSize = pos % sectorSize := by
  rcases h with h | h
  · exact Int.tmod_eq_emod_of_nonneg h
  · rw [Int.tmod_eq_zero_of_dvd h, Int.emod_eq_zero_of_dvd h]

/-- Where a stream can read it reads on to the end. Sectors divide what an `int` counts. -/
theorem diskstreamerReadFrom_bytesAt : ∀ {fuel total : ℕ} {pos : Int}, total < fuel →
    wrapInt pos = pos → Readable pos → diskstreamerReadFrom image fuel ⟨pos⟩ total =
      some (bytesAt image pos total, ⟨wrapInt (pos + total)⟩)
  | fuel + 1, total, pos, hfuel, hpos, hread => by
    have hlt : pos % sectorSize < sectorSize := Int.emod_lt_of_pos _ (by decide)
    have hnonneg : 0 ≤ pos % sectorSize := Int.emod_nonneg _ (by decide)
    rw [diskstreamerReadFrom, hread.tdiv, hread.tmod]
    by_cases hover : (sectorSize : Int) ≤ pos % sectorSize + total
    · obtain ⟨n, hn⟩ : ∃ n : ℕ, pos % sectorSize + n = sectorSize :=
        ⟨(sectorSize - pos % sectorSize).toNat, by omega⟩
      have htake : (total : Int) - (pos % sectorSize + total - sectorSize) = n := by omega
      have hrest : (total : Int) - n = (total - n : ℕ) := by omega
      have hdvd : Readable (wrapInt (pos + n)) := by
        refine .inr ?_
        unfold sectorSize at *
        unfold wrapInt asSigned asUnsigned
        omega
      have ih : diskstreamerReadFrom image fuel ⟨wrapInt (pos + n)⟩ (total - n : ℕ) = some
          (bytesAt image (wrapInt (pos + n)) (total - n),
            ⟨wrapInt (wrapInt (pos + n) + (total - n : ℕ))⟩) :=
        diskstreamerReadFrom_bytesAt (by omega) (wrapInt_wrapInt _) hdvd
      simp only [hover, if_true, htake, hrest, ih]
      rw [if_neg (by omega), Option.map_some, Int.toNat_natCast,
        ← bytesAt_sector image hpos (by omega), bytesAt_append]
      have hsum : n + (total - n) = total := by omega
      rw [wrapInt_wrapInt_add, Int.add_assoc, ← Int.natCast_add, hsum]
    · simp only [hover, if_false]
      rw [if_neg (by omega), Int.toNat_natCast, ← bytesAt_sector image hpos (by omega)]

/-- Nothing at all can be read anywhere. -/
theorem diskstreamerRead_bytesAt {total : Int} (hpos : wrapInt pos = pos)
    (hread : 0 < total → Readable pos) : diskstreamerRead image ⟨pos⟩ total =
      some (bytesAt image pos total.toNat, ⟨wrapInt (pos + total)⟩) := by
  rcases lt_or_ge 0 total with hlt | hle
  · obtain ⟨n, rfl⟩ := Int.eq_ofNat_of_zero_le hlt.le
    exact diskstreamerReadFrom_bytesAt image (Nat.lt_succ_self _) hpos (hread hlt)
  · have hoffset : (⟨pos⟩ : DiskStream).pos.tmod sectorSize < sectorSize :=
      Int.tmod_lt_of_pos _ (by decide)
    rw [diskstreamerRead, diskstreamerReadFrom, if_neg (by omega), if_neg (by omega),
      if_neg (by omega), Int.toNat_of_nonpos hle]
    rfl

/-- Before the sector buffer. -/
theorem diskstreamerRead_eq_none {total : Int} (htotal : 0 < total) (hread : ¬Readable pos) :
    diskstreamerRead image ⟨pos⟩ total = none := by
  unfold Readable at hread
  have hneg : (⟨pos⟩ : DiskStream).pos.tmod sectorSize < 0 := by
    rw [Int.tmod_eq_emod, if_neg hread]
    have hlt : pos % sectorSize < sectorSize := Int.emod_lt_of_pos _ (by decide)
    simpa using hlt
  rw [diskstreamerRead, diskstreamerReadFrom, if_pos]
  refine ⟨hneg, ?_⟩
  split_ifs <;> omega

/-- A stream brings the bytes from its position on. -/
theorem diskstreamerRead_bytes {total : Int} {bytes : List UInt8} {stream : DiskStream}
    (hpos : wrapInt pos = pos) (h : diskstreamerRead image ⟨pos⟩ total = some (bytes, stream)) :
    bytes = bytesAt image pos total.toNat := by
  by_cases hread : 0 < total → Readable pos
  · rw [diskstreamerRead_bytesAt image hpos hread] at h
    exact (Prod.mk.inj (Option.some.inj h)).1.symm
  · push Not at hread
    rw [diskstreamerRead_eq_none image hread.1 hread.2] at h
    cases h

end Positions

/-! ## The bytes from the beginning on -/

/-- A byte at a position that is not negative. -/
theorem byteAt_natCast (pos : ℕ) : byteAt image pos = diskByte image pos := rfl

/-- Bytes at such positions. -/
theorem bytesAt_natCast {pos n : ℕ} (h : pos + n ≤ 2147483648) :
    bytesAt image pos n = diskBytes image pos n := by
  refine List.map_congr_left fun i hi => ?_
  have hi := List.mem_range.mp hi
  rw [wrapInt_of_range (by omega) (by omega), ← Int.natCast_add, byteAt_natCast]

/-- The stream reads the bytes of the disk, as long as its position fits an `int`. -/
theorem diskstreamerRead_eq {pos total : ℕ} (hend : pos + total < 2147483648) :
    diskstreamerRead image ⟨pos⟩ total =
      some (diskBytes image pos total, ⟨(pos + total : ℕ)⟩) := by
  rw [diskstreamerRead_bytesAt image (wrapInt_of_range (by omega) (by omega))
      fun _ => .inl (Int.natCast_nonneg _), Int.toNat_natCast, bytesAt_natCast image (by omega),
    wrapInt_of_range (by omega) (by omega), Int.natCast_add]

end Disk

/-! ## Reading -/

/-- Reading `total` bytes from `offset` on, a cluster size at a time, asks for a piece that
starts behind the first cluster. -/
def PassesFirstCluster (clusterSize offset total : Int) : Prop :=
  ∃ j : ℕ, (j = 0 ∨ (j : Int) * clusterSize < total) ∧
    clusterSize ≤ wrapInt (offset + j * clusterSize)

/-- A quotient of 0 is below the divisor. -/
theorem tdiv_toNat_eq_zero {a b : Int} (hb : 0 < b) : (a.tdiv b).toNat = 0 ↔ a < b := by
  rcases lt_or_ge a 0 with ha | ha
  · have h : 0 ≤ (-a).tdiv b := Int.tdiv_nonneg (by omega) hb.le
    rw [Int.neg_tdiv] at h
    omega
  · have : a / b < 1 ↔ a < b := by rw [Int.ediv_lt_iff_lt_mul hb, one_mul]
    rw [Int.tdiv_eq_ediv_of_nonneg ha]
    omega

/-- The size of a cluster is not negative. -/
theorem sizeOfClusterBytes_nonneg (p : FatPrivate) : 0 ≤ sizeOfClusterBytes p := by
  exact mul_nonneg (Int.natCast_nonneg _) (Int.natCast_nonneg _)

/-- The loop gives up at the first entry it looks at. -/
theorem fat16GetClusterForOffset_eq_some {image : DiskImage} {p : FatPrivate}
    {cluster offset x : Int} (h : fat16GetClusterForOffset image p cluster offset = some x) :
    0 < sizeOfClusterBytes p ∧ (offset < sizeOfClusterBytes p ∧ x = cluster ∨
      sizeOfClusterBytes p ≤ offset ∧ x = - EIO) := by
  unfold fat16GetClusterForOffset at h
  split_ifs at h with h0
  have hpos : 0 < sizeOfClusterBytes p :=
    lt_of_le_of_ne (sizeOfClusterBytes_nonneg p) (Ne.symm h0)
  refine ⟨hpos, ?_⟩
  cases hn : (offset.tdiv (sizeOfClusterBytes p)).toNat with
  | zero =>
    rw [hn] at h
    exact .inl ⟨(tdiv_toNat_eq_zero hpos).mp hn, (Option.some.inj h).symm⟩
  | succ n =>
    rw [hn] at h
    refine .inr ⟨?_, ?_⟩
    · by_contra hlt
      rw [(tdiv_toNat_eq_zero hpos).mpr (not_le.mp hlt)] at hn
      cases hn
    · simp only [fat16GetClusterForOffsetLoop, fat16GetFatEntry, Option.bind_eq_bind,
        Option.bind_eq_some_iff] at h
      obtain ⟨entry, ⟨_, _, he⟩, h⟩ := h
      cases Option.some.inj he
      simpa using h.symm

/-- An offset behind the first cluster has passed it. -/
theorem passesFirstCluster_of_le {c offset total : Int} (ho : wrapInt offset = offset)
    (h : c ≤ offset) : PassesFirstCluster c offset total :=
  ⟨0, .inl rfl, by simpa [ho] using h⟩

/-- Past the first piece. -/
theorem passesFirstCluster_succ {c offset total : Int} (ho : wrapInt offset = offset)
    (hlt : offset < c) (htotal : c < total) :
    PassesFirstCluster c offset total ↔
      PassesFirstCluster c (wrapInt (offset + c)) (total - c) := by
  have hw := wrapInt_wrapInt_step offset c
  have hj (j : ℕ) : ((j + 1 : ℕ) : Int) * c = j * c + c := by
    push_cast
    ring
  constructor
  · rintro ⟨j, hj₁, hj₂⟩
    cases j with
    | zero =>
      have : c ≤ offset := by simpa [ho] using hj₂
      omega
    | succ j =>
      refine ⟨j, ?_, by rwa [hw]⟩
      have := hj j
      omega
  · rintro ⟨j, hj₁, hj₂⟩
    refine ⟨j + 1, .inr ?_, by rwa [← hw]⟩
    have := hj j
    rcases hj₁ with rfl | hj₁
    · simpa using htotal
    · omega

/-- A read fails exactly when it leaves the first cluster. -/
theorem fat16ReadInternalFromStream_neg {image : DiskImage} {p : FatPrivate} {cluster : Int}
    (hc : 0 ≤ cluster) : ∀ {fuel : ℕ} {offset total : Int} {r : Int × List UInt8},
    wrapInt offset = offset →
    fat16ReadInternalFromStream image p fuel cluster offset total = some r →
    (r.1 < 0 ↔ PassesFirstCluster (sizeOfClusterBytes p) offset total)
  | 0, _, _, _, _, h => nomatch h
  | fuel + 1, offset, total, r, ho, h => by
    simp only [fat16ReadInternalFromStream, Option.bind_eq_bind, Option.bind_eq_some_iff] at h
    obtain ⟨x, hx, h⟩ := h
    obtain ⟨hpos, ⟨hlt, rfl⟩ | ⟨hle, rfl⟩⟩ := fat16GetClusterForOffset_eq_some hx
    · rw [if_neg (not_lt.mpr hc), Option.bind_eq_some_iff] at h
      obtain ⟨⟨bytes, _⟩, -, h⟩ := h
      by_cases htotal : sizeOfClusterBytes p < total
      · rw [if_pos htotal, if_pos (by omega), Option.bind_eq_some_iff] at h
        obtain ⟨s, hs, h⟩ := h
        cases Option.some.inj h
        rw [passesFirstCluster_succ ho hlt htotal]
        have ih := fat16ReadInternalFromStream_neg hc (wrapInt_wrapInt _) hs
        exact ih
      · rw [if_neg htotal, if_neg (by omega)] at h
        cases Option.some.inj h
        refine iff_of_false (lt_irrefl (0 : Int)) fun ⟨j, hj₁, hj₂⟩ => ?_
        have hj : j = 0 := by
          by_contra hj
          have : 1 * sizeOfClusterBytes p ≤ j * sizeOfClusterBytes p :=
            mul_le_mul_of_nonneg_right (by omega) hpos.le
          omega
        rw [hj, Int.natCast_zero, zero_mul, add_zero, ho] at hj₂
        omega
    · have : r.1 = - EIO := by
        simpa using congrArg (fun o => o.map Prod.fst) h.symm
      refine iff_of_true (by rw [this]; decide) (passesFirstCluster_of_le ho hle)

/-! ## A small volume -/

/-- One reserved sector, one allocation table of one sector and 16 root entries. -/
def smallHeader : FatHeader := ⟨1, 1, 1, 16, 1, 0x29⟩

/-- The entry of a file of the name `c`, of two bytes in cluster 2. -/
def fileEntry (c : UInt8) : List UInt8 :=
  [c, 32, 32, 32, 32, 32, 32, 32, 32, 32, 32, 0, 0, 0, 0, 0,
    0, 0, 0, 0, 0, 0, 0, 0, 0, 0, 2, 0, 2, 0, 0, 0]

/-- The entry of a directory of the name `c`, in cluster 2. -/
def directoryEntry (c : UInt8) : List UInt8 :=
  [c, 32, 32, 32, 32, 32, 32, 32, 32, 32, 32, 0x10, 0, 0, 0, 0,
    0, 0, 0, 0, 0, 0, 0, 0, 0, 0, 2, 0, 0, 0, 0, 0]

/-- The volume of `smallHeader` with the root directory `root`, and `data` in cluster 2, the
only one in use. -/
def smallVolume (root data : List UInt8) : DiskImage := fun lba j =>
  if lba = 0 then
    if j = 11 then 0 else if j = 12 then 2 else if j = 13 then 1 else if j = 14 then 1
    else if j = 16 then 1 else if j = 17 then 16 else if j = 19 then 5 else if j = 21 then 0xF8
    else if j = 22 then 1 else if j = 36 then 0x80 else if j = 38 then 0x29 else 0
  else if lba = 1 then [0xF8, 0xFF, 0xFF, 0xFF, 0xFF, 0xFF].getD j 0
  else if lba = 2 then root.getD j 0
  else if lba = 3 then data.getD j 0
  else 0

/-- The state before anything is done with the disk. -/
def smallKernel (root data : List UInt8) : Kernel :=
  { Kernel.empty with image := smallVolume root data }

end Hyperion
