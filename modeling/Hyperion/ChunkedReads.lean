import Hyperion.CopyString
import Hyperion.ReadPieces

/-!
# Items of a read

`fat16_read` reads its items one by one and each item a cluster size at a time. Only the
beginning of each piece is looked up, so whether a read succeeds depends on how the bytes
are cut into items :

* a byte lies in the piece that begins at `pieceStart`, and a read stops (`ReadStops`) if its last
  piece begins behind the first cluster or if a piece begins where a stream cannot read;
* a read that does not stop brings each byte from the position that the beginning of its piece leads
  to, so from a negative offset (a position from `2 ^ 31` on) the cut shows in the bytes as well.

Two ways of cutting agree (`CutsAgree`) if they stop together and otherwise begin the pieces of each
byte in the same cluster size of the file. That is exactly when the read does not depend on the cut
(`fat16Read_chunking_iff`).
-/

namespace Hyperion

open Partial

variable {image : DiskImage} {p : FatPrivate}

/-! ## One item -/

section Item

variable (image : DiskImage) (p : FatPrivate) (cluster offset : Int) (size : ℕ)

/-- Every piece of an item of `size` bytes begins before the end of the first cluster, where
a stream can read. -/
def ItemServed : Prop := ∀ m : ℕ, (m = 0 ∨ m * clusterSize p < size) →
  wrapInt (offset + m * clusterSize p) < clusterSize p ∧
    Readable (startPos p cluster (wrapInt (offset + m * clusterSize p)))

/-- The bytes that the pieces bring. -/
def itemBytes : List UInt8 := (List.range size).map fun q : ℕ => byteAt image
  (wrapInt (startPos p cluster (wrapInt (offset + (q / clusterSize p : ℕ) * clusterSize p)) +
    (q % clusterSize p : ℕ)))

@[simp] theorem length_itemBytes : (itemBytes image p cluster offset size).length = size := by
  simp [itemBytes]

end Item

variable {cluster offset : Int} {size : ℕ}

/-- Behind the first piece. -/
theorem itemServed_iff (ho : wrapInt offset = offset) : ItemServed p cluster offset size ↔
    (offset < clusterSize p ∧ Readable (startPos p cluster offset)) ∧
      (clusterSize p < size →
        ItemServed p cluster (wrapInt (offset + clusterSize p)) (size - clusterSize p)) := by
  have hw := wrapInt_wrapInt_step offset (clusterSize p)
  have hm (m : ℕ) : (m + 1) * clusterSize p = m * clusterSize p + clusterSize p :=
    Nat.succ_mul _ _
  constructor
  · intro h
    refine ⟨by simpa [ho] using h 0 (.inl rfl), fun hmore m hlt => ?_⟩
    rw [hw]
    refine h (m + 1) (.inr ?_)
    rcases hlt with rfl | hlt
    · simpa using hmore
    · rw [hm]
      omega
  · rintro ⟨hfirst, hrest⟩ m hlt
    cases m with
    | zero => simpa [ho] using hfirst
    | succ m =>
      have hlt := hlt.resolve_left (Nat.succ_ne_zero m)
      rw [hm] at hlt
      rw [← hw]
      exact hrest (by omega) m (.inr (by omega))

/-- An item within a cluster size is one piece. -/
theorem itemBytes_single (ho : wrapInt offset = offset) (hle : size ≤ clusterSize p) :
    itemBytes image p cluster offset size = bytesAt image (startPos p cluster offset) size := by
  refine List.map_congr_left fun q hq => ?_
  have hq := List.mem_range.mp hq
  rw [Nat.div_eq_of_lt (by omega), Nat.mod_eq_of_lt (by omega), Int.natCast_zero, zero_mul,
    add_zero,
    ho]

theorem itemBytes_more (hpos : 0 < clusterSize p) (ho : wrapInt offset = offset)
    (hmore : clusterSize p < size) : itemBytes image p cluster offset size =
      bytesAt image (startPos p cluster offset) (clusterSize p) ++
        itemBytes image p cluster (wrapInt (offset + clusterSize p)) (size - clusterSize p) := by
  rw [← itemBytes_single ho le_rfl]
  unfold itemBytes
  conv_lhs => rw [show size = clusterSize p + (size - clusterSize p) by omega, List.range_add,
    List.map_append, List.map_map]
  refine congrArg _ (List.map_congr_left fun q _ => ?_)
  rw [Function.comp_apply, Nat.add_div_left _ hpos, Nat.add_mod_left, wrapInt_wrapInt_step]

/-- An item that is served brings its bytes. -/
theorem fat16ReadInternalFromStream_served (hpos : 0 < clusterSize p) (hcluster : 0 ≤ cluster) :
    ∀ (fuel size : ℕ) (offset : Int), size < fuel → wrapInt offset = offset →
    ItemServed p cluster offset size →
    fat16ReadInternalFromStream image p fuel cluster offset size =
      some (0, itemBytes image p cluster offset size)
  | fuel + 1, size, offset, hfuel, ho, hserved => by
    obtain ⟨⟨hlt, hread⟩, hrest⟩ := (itemServed_iff ho).mp hserved
    rw [fat16ReadInternalFromStream_eq_pieces, fat16ReadPieces_ok hpos hcluster hlt hread]
    by_cases hmore : clusterSize p < size
    · have ih := fat16ReadInternalFromStream_served hpos hcluster fuel
        (size - clusterSize p) _ (by omega) (wrapInt_wrapInt _) (hrest hmore)
      rw [fat16ReadInternalFromStream_eq_pieces, Int.natCast_sub hmore.le] at ih
      obtain ⟨r, hr, he⟩ := Option.map_eq_some_iff.mp ih
      obtain ⟨h₁, h₂⟩ := Prod.mk.inj he
      rw [if_pos (by omega), hr, itemBytes_more hpos ho hmore]
      simp [h₁, h₂]
    · rw [if_neg (by omega), itemBytes_single ho (not_lt.mp hmore)]
      simp

/-- An item is read without an error only if it is served. -/
theorem itemServed_of_read (hpos : 0 < clusterSize p) (hcluster : 0 ≤ cluster) :
    ∀ (fuel size : ℕ) (offset : Int) {r : Int × List UInt8}, 1 ≤ size → wrapInt offset = offset →
    fat16ReadInternalFromStream image p fuel cluster offset size = some r → 0 ≤ r.1 →
    ItemServed p cluster offset size
  | 0, _, _, _, _, _, h, _ => nomatch h
  | fuel + 1, size, offset, r, hsize, ho, h, hr => by
    have hlt : offset < clusterSize p := by
      by_contra hle
      rw [fat16ReadInternalFromStream_eq_pieces,
        fat16ReadPieces_error hpos hcluster (not_lt.mp hle)] at h
      obtain rfl := Option.some.inj h
      exact absurd hr (by decide)
    have hread : Readable (startPos p cluster offset) := by
      by_contra hread
      rw [fat16ReadInternalFromStream_eq_pieces,
        fat16ReadPieces_none hpos hcluster hlt (by omega) hread] at h
      cases h
    refine (itemServed_iff ho).mpr ⟨⟨hlt, hread⟩, fun hmore => ?_⟩
    rw [fat16ReadInternalFromStream_eq_pieces, fat16ReadPieces_ok hpos hcluster hlt hread,
      if_pos (by omega), Option.map_map, ← Int.natCast_sub hmore.le] at h
    obtain ⟨r', hr', rfl⟩ := Option.map_eq_some_iff.mp h
    refine itemServed_of_read hpos hcluster fuel (size - clusterSize p) _ (by omega)
      (wrapInt_wrapInt _)
      ?_ (show 0 ≤ (r'.1, r'.2.flatMap Piece.bytes).1 from hr)
    rw [fat16ReadInternalFromStream_eq_pieces, hr']
    rfl

/-! ## All the items -/

section Items

variable (image : DiskImage) (p : FatPrivate) (cluster : Int)

/-- Each of the `n` items from `offset` on is served. -/
def ReadServed (offset : Int) (size n : ℕ) : Prop :=
  ∀ i < n, ItemServed p cluster (wrapInt (offset + i * size)) size

def readBytes (offset : Int) (size : ℕ) : ℕ → List UInt8
  | 0 => []
  | n + 1 => itemBytes image p cluster offset size ++ readBytes (wrapInt (offset + size)) size n

end Items

@[simp] theorem length_readBytes (size : ℕ) : ∀ (n : ℕ) (offset : Int),
    (readBytes image p cluster offset size n).length = size * n
  | 0, _ => rfl
  | n + 1, offset => by
    rw [readBytes, List.length_append, length_itemBytes, length_readBytes size n, Nat.mul_succ,
      Nat.add_comm]

theorem readServed_succ {n : ℕ} (ho : wrapInt offset = offset) :
    ReadServed p cluster offset size (n + 1) ↔ ItemServed p cluster offset size ∧
      ReadServed p cluster (wrapInt (offset + size)) size n := by
  have hw := wrapInt_wrapInt_step offset size
  constructor
  · intro h
    refine ⟨by simpa [ho] using h 0 (Nat.succ_pos n), fun i hi => ?_⟩
    rw [hw]
    exact h (i + 1) (by omega)
  · rintro ⟨hfirst, hrest⟩ i hi
    cases i with
    | zero => simpa [ho] using hfirst
    | succ i =>
      rw [← hw]
      exact hrest i (by omega)

section Loop

variable {entry : List UInt8} {k : Kernel}

/-- The buffer of a read : it does not begin with a null pointer and fits the memory. -/
structure ReadBuffer (out n : ℕ) : Prop where
  pos : 0 < out
  fits : out + n ≤ 4294967296

/-- Items that are all served are stored one behind the other. -/
theorem fat16ReadLoop_served (hpos : 0 < clusterSize p) (hone : 1 ≤ size)
    (hsize : asSigned size = size) :
    ∀ (n : ℕ) (offset : Int) (out : ℕ) {k : Kernel}, k.disk.fsPrivate = some p →
    ReadBuffer out (size * n) → wrapInt offset = offset →
    ReadServed p (fat16GetFirstCluster entry) offset size n →
    fat16ReadLoop entry size n offset out k = some (0, k.withBytes out
      (readBytes k.image p (fat16GetFirstCluster entry) offset size n))
  | 0, _, out, k, _, _, _, _ => by
    rw [readBytes, Kernel.withBytes_nil]
    rfl
  | n + 1, offset, out, k, hp, hbuf, ho, hserved => by
    obtain ⟨hitem, hrest⟩ := (readServed_succ ho).mp hserved
    have hfits := hbuf.fits
    rw [Nat.mul_succ] at hfits
    have hread : fat16ReadInternal k.image p (fat16GetFirstCluster entry) offset size =
        some (0, itemBytes k.image p (fat16GetFirstCluster entry) offset size) :=
      fat16ReadInternalFromStream_served hpos (Int.natCast_nonneg _) _ _ _ (Nat.lt_succ_self _) ho
        hitem
    have hstore := Kernel.storeBytes_run (k := k) hbuf.pos.ne'
      (itemBytes k.image p (fat16GetFirstCluster entry) offset size)
    have hprivate : fsPrivate k = some (p, k) := by
      simp [fsPrivate, run_bind, run_get, hp, defined, run_pure]
    have hdefined {α : Type} (a : α) : (defined (some a) : KernelM α) k = some (a, k) := rfl
    simp only [fat16ReadLoop, run_bind, hprivate, run_get, Option.bind_some, hsize, hread,
      hdefined, hstore, lt_irrefl, if_false]
    rw [readBytes]
    cases n with
    | zero =>
      rw [readBytes, List.append_nil]
      rfl
    | succ n =>
      rw [Nat.mul_succ] at hfits
      have hout : (out + size) % 4294967296 = out + size := Nat.mod_eq_of_lt (by omega)
      have ih := fat16ReadLoop_served hpos hone hsize (n + 1) _ (out + size)
        (k := k.withBytes out (itemBytes k.image p (fat16GetFirstCluster entry) offset size))
        hp ⟨by omega, by rw [Nat.mul_succ]; omega⟩ (wrapInt_wrapInt _) hrest
      have happend := k.withBytes_append out
        (itemBytes k.image p (fat16GetFirstCluster entry) offset size)
        (readBytes k.image p (fat16GetFirstCluster entry) (wrapInt (offset + size)) size (n + 1))
      rw [length_itemBytes] at happend
      rw [hout, ih]
      exact congrArg (fun k' => some ((0 : Int), k')) happend

/-- The loop gets through without an error only if all items are served. -/
theorem readServed_of_loop (hpos : 0 < clusterSize p) (hone : 1 ≤ size)
    (hsize : asSigned size = size) : ∀ {n : ℕ} {offset : Int} {out : ℕ} {k : Kernel},
    k.disk.fsPrivate = some p → wrapInt offset = offset →
    Meets False (fat16ReadLoop entry size n offset out) k fun res _ =>
      0 ≤ res → ReadServed p (fat16GetFirstCluster entry) offset size n
  | 0, _, _, _, _, _ => by
    rw [fat16ReadLoop, Meets.pure_iff]
    exact fun _ i hi => absurd hi (Nat.not_lt_zero i)
  | n + 1, offset, out, k, hp, ho => by
    simp only [fat16ReadLoop, Meets.bind_iff, fsPrivate_iff, hp, Option.some.injEq, Meets.get_iff,
      defined_iff, storeBytes_iff, Meets.ite_iff, Meets.pure_iff, hsize]
    refine ⟨?_, by simp⟩
    rintro _ rfl
    refine ⟨fun r hr => ?_, fun _ h => h⟩
    obtain ⟨res, bytes⟩ := r
    refine ⟨fun _ h => h, fun _ => ⟨fun hneg hnonneg => ?_, fun hok => ?_⟩⟩
    · exact absurd hneg (not_lt.mpr hnonneg)
    · have hitem := itemServed_of_read hpos (Int.natCast_nonneg _) _ _ _ hone ho hr (not_lt.mp hok)
      refine (readServed_of_loop hpos hone hsize (k := k.withBytes out bytes) hp
        (wrapInt_wrapInt _)).mono fun res' k' hrest hnonneg => ?_
      exact (readServed_succ ho).mpr ⟨hitem, hrest hnonneg⟩

end Loop

/-! ## Where pieces begin -/

/-- The byte with which the piece of byte `j` begins, where items have `size` bytes and pieces at
most `c`. -/
def pieceStart (c size j : ℕ) : ℕ := j - j % size % c

section Starts

variable {c j y : ℕ}

theorem pieceStart_le (c size j : ℕ) : pieceStart c size j ≤ j := Nat.sub_le _ _

/-- A byte is in item `j / size` and there in piece `j % size / c`. -/
theorem pieceStart_eq (c size j : ℕ) :
    pieceStart c size j = j / size * size + j % size / c * c := by
  have hitem := Nat.div_add_mod j size
  have hpiece := Nat.div_add_mod (j % size) c
  rw [Nat.mul_comm] at hitem hpiece
  unfold pieceStart
  omega

/-- The beginning of piece `m` of item `i`. -/
theorem pieceStart_piece {i m : ℕ} (hsize : 0 < size) (hm : m * c < size) (hc : 0 < c) :
    pieceStart c size (i * size + m * c) = i * size + m * c := by
  rw [pieceStart_eq, Nat.add_comm (i * size), Nat.add_mul_div_right _ _ hsize, Nat.div_eq_of_lt hm,
    Nat.zero_add, Nat.add_mul_mod_self_right, Nat.mod_eq_of_lt hm, Nat.mul_div_cancel _ hc,
    Nat.add_comm]

/-- A later byte is in no earlier piece. -/
theorem pieceStart_mono (hsize : 0 < size) (hy : y ≤ j) :
    pieceStart c size y ≤ pieceStart c size j := by
  rw [pieceStart_eq, pieceStart_eq]
  rcases Nat.lt_or_eq_of_le (Nat.div_le_div_right (c := size) hy) with hlt | heq
  · have hmod := Nat.mod_lt y hsize
    have hle := Nat.div_mul_le_self (y % size) c
    have hitem : (y / size + 1) * size ≤ j / size * size := Nat.mul_le_mul_right _ hlt
    rw [Nat.succ_mul] at hitem
    omega
  · have hmod : y % size ≤ j % size := by
      have hy' := Nat.div_add_mod y size
      have hj' := Nat.div_add_mod j size
      rw [heq] at hy'
      omega
    have hpiece : y % size / c * c ≤ j % size / c * c :=
      Nat.mul_le_mul_right _ (Nat.div_le_div_right hmod)
    rw [heq]
    omega

/-- The piece before a piece begins at most `c` bytes before it. -/
theorem le_pieceStart_add (hc : 0 < c) (size j : ℕ) : j + 1 ≤ pieceStart c size j + c := by
  have hmod := Nat.mod_lt (j % size) hc
  have hle : j % size % c ≤ j := (Nat.mod_le _ _).trans (Nat.mod_le _ _)
  unfold pieceStart
  omega

/-- The pieces of a later item. -/
theorem pieceStart_add (c size j : ℕ) :
    pieceStart c size (size + j) = size + pieceStart c size j := by
  have hle : j % size % c ≤ j := (Nat.mod_le _ _).trans (Nat.mod_le _ _)
  unfold pieceStart
  rw [Nat.add_mod_left]
  omega

theorem pieceStart_of_lt (hj : j < size) : pieceStart c size j = j / c * c := by
  rw [pieceStart_eq, Nat.div_eq_of_lt hj, Nat.mod_eq_of_lt hj, Nat.zero_mul, Nat.zero_add]

end Starts

section Pieces

variable {n total : ℕ}

theorem clusterSize_lt (hsectors : p.header.sectorsPerCluster < 256) : clusterSize p < 131072 := by
  unfold clusterSize sectorSize
  omega

/-- All items are served if all their pieces are. -/
theorem readServed_iff_pieces (hpos : 0 < clusterSize p) (hone : 1 ≤ size) :
    ReadServed p cluster offset size n ↔ ∀ j < size * n,
      wrapInt (offset + pieceStart (clusterSize p) size j) < clusterSize p ∧
        Readable (startPos p cluster (wrapInt (offset + pieceStart (clusterSize p) size j))) := by
  have hcast (i m : ℕ) : wrapInt (wrapInt (offset + i * size) + m * clusterSize p) =
      wrapInt (offset + (i * size + m * clusterSize p : ℕ)) := by
    rw [wrapInt_wrapInt_add]
    push_cast
    rw [add_assoc]
  constructor
  · intro h j hj
    have hi : j / size < n := Nat.div_lt_of_lt_mul hj
    have hmod := Nat.mod_lt j hone
    have hle := Nat.div_mul_le_self (j % size) (clusterSize p)
    have hpiece := h (j / size) hi (j % size / clusterSize p) (.inr (by omega))
    rwa [hcast, ← pieceStart_eq] at hpiece
  · intro h i hi m hm
    have hm' : m * clusterSize p < size := by
      rcases hm with rfl | hm
      · rw [Nat.zero_mul]
        exact hone
      · exact hm
    have hlt : i * size + m * clusterSize p < size * n := by
      have hitem : (i + 1) * size ≤ n * size := Nat.mul_le_mul_right _ hi
      rw [Nat.succ_mul, Nat.mul_comm n] at hitem
      omega
    have hpiece := h _ hlt
    rwa [pieceStart_piece hone hm' hpos, ← hcast] at hpiece

/-- The bytes of a read, each from the piece that it lies in. -/
theorem readBytes_eq (hpos : 0 < clusterSize p) : ∀ {n : ℕ} {offset : Int},
    wrapInt offset = offset → readBytes image p cluster offset size n =
      (List.range (size * n)).map fun j => byteAt image (wrapInt
        (startPos p cluster (wrapInt (offset + pieceStart (clusterSize p) size j)) +
          (j - pieceStart (clusterSize p) size j : ℕ)))
  | 0, _, _ => rfl
  | n + 1, offset, ho => by
    rw [readBytes, readBytes_eq hpos (wrapInt_wrapInt _), Nat.mul_succ, Nat.add_comm,
      List.range_add,
      List.map_append, List.map_map]
    refine congrArg₂ _ (List.map_congr_left fun q hq => ?_) (List.map_congr_left fun j _ => ?_)
    · have hq := List.mem_range.mp hq
      have hrest : q - pieceStart (clusterSize p) size q = q % clusterSize p := by
        have hdiv := Nat.div_add_mod q (clusterSize p)
        rw [Nat.mul_comm] at hdiv
        rw [pieceStart_of_lt hq]
        omega
      rw [hrest, pieceStart_of_lt hq]
      push_cast
      rfl
    · rw [Function.comp_apply, pieceStart_add, wrapInt_wrapInt_add, Nat.add_sub_add_left]
      push_cast
      rw [add_assoc]

variable (p cluster offset total) in
/-- A read of `total` bytes in items of `size` bytes stops : its last piece begins behind the first
cluster, or one of its pieces at a position that cannot be read. -/
def ReadStops (size : ℕ) : Prop :=
  (clusterSize p : Int) ≤ offset + pieceStart (clusterSize p) size (total - 1) ∨
    ∃ j < total, ¬Readable (startPos p cluster (offset + pieceStart (clusterSize p) size j))

/-- Where a read does not stop, each piece begins before the end of the first cluster. -/
theorem offset_lt (hone : 1 ≤ size)
    (h : ¬ReadStops p cluster offset total size) {j : ℕ} (hj : j < total) :
    offset + pieceStart (clusterSize p) size j < clusterSize p := by
  have hmono := pieceStart_mono (c := clusterSize p) hone (show j ≤ total - 1 by omega)
  have hlast := (not_or.mp h).1
  omega

/-- Offsets of the first cluster do not wrap. -/
theorem offset_exact (ho : wrapInt offset = offset) (hsmall : clusterSize p < 131072) {j : ℕ}
    (hin : offset + j < clusterSize p) : wrapInt (offset + j) = offset + j := by
  obtain ⟨hlo, hhi⟩ := wrapInt_bounds offset
  rw [ho] at hlo hhi
  exact wrapInt_of_range (by omega) (by omega)

/-- An offset wraps only behind the first cluster, where an earlier piece is not served. -/
theorem readServed_iff (hpos : 0 < clusterSize p) (hsmall : clusterSize p < 131072)
    (ho : wrapInt offset = offset) (hone : 1 ≤ size) (hn : 1 ≤ n) (hlt : size * n < 2147483648) :
    ReadServed p cluster offset size n ↔ ¬ReadStops p cluster offset (size * n) size := by
  have htotal : 1 ≤ size * n := Nat.mul_pos hone hn
  rw [readServed_iff_pieces hpos hone]
  constructor
  · intro h
    -- piece by piece : none begins behind the first cluster
    have hin (j : ℕ) (hj : j < size * n) :
        offset + pieceStart (clusterSize p) size j < clusterSize p := by
      induction j using Nat.strong_induction_on with
      | _ j ih =>
        have hstart := (h j hj).1
        rcases Nat.eq_zero_or_pos (pieceStart (clusterSize p) size j) with h0 | hnext
        · rwa [h0, Int.natCast_zero, add_zero, ho, ← add_zero offset, ← Int.natCast_zero,
            ← h0] at hstart
        · have hle := pieceStart_le (clusterSize p) size j
          have hbefore := ih (pieceStart (clusterSize p) size j - 1) (by omega) (by omega)
          have hnear := le_pieceStart_add hpos size (pieceStart (clusterSize p) size j - 1)
          have hlo := (wrapInt_bounds offset).1
          rw [ho] at hlo
          rwa [wrapInt_of_range (by omega) (by omega)] at hstart
    rintro (hbehind | ⟨j, hj, hno⟩)
    · exact absurd (hin (size * n - 1) (by omega)) (not_lt.mpr hbehind)
    · have hread := (h j hj).2
      rw [offset_exact ho hsmall (hin j hj)] at hread
      exact hno hread
  · intro h j hj
    have hin := offset_lt hone h hj
    rw [offset_exact ho hsmall hin]
    exact ⟨hin, not_not.mp fun hno => h (.inr ⟨j, hj, hno⟩)⟩

/-- The position that a byte of a piece is read at. -/
theorem piecePos_eq {j start : ℕ} (hle : start ≤ j) :
    wrapInt (startPos p cluster (offset + start) + (j - start : ℕ)) =
      wrapInt (dataPos p cluster + offset + j -
        clusterSize p * (offset + start).tdiv (clusterSize p)) := by
  have htdiv := Int.tmod_add_mul_tdiv (offset + start) (clusterSize p)
  rw [startPos, wrapInt_wrapInt_add]
  refine congrArg wrapInt ?_
  rw [Int.natCast_sub hle]
  omega

/-- Positions that are the same lie in the same piece, or in pieces of the same cluster size. -/
theorem piecePos_inj (hpos : 0 < clusterSize p) (hsmall : clusterSize p < 131072) {j a b : ℕ}
    (ha : a ≤ j ∧ j < a + clusterSize p) (hb : b ≤ j ∧ j < b + clusterSize p)
    (h : wrapInt (startPos p cluster (offset + a) + (j - a : ℕ)) =
      wrapInt (startPos p cluster (offset + b) + (j - b : ℕ))) :
    (offset + a).tdiv (clusterSize p) = (offset + b).tdiv (clusterSize p) := by
  rw [piecePos_eq ha.1, piecePos_eq hb.1] at h
  have hmod₁ := Int.tmod_add_mul_tdiv (offset + a) (clusterSize p)
  have hmod₂ := Int.tmod_add_mul_tdiv (offset + b) (clusterSize p)
  have hC : (0 : Int) < clusterSize p := by omega
  have hlt₁ := Int.tmod_lt_of_pos (offset + a) hC
  have hlt₂ := Int.tmod_lt_of_pos (offset + b) hC
  have hgt₁ := Int.lt_tmod_of_pos (offset + a) hC
  have hgt₂ := Int.lt_tmod_of_pos (offset + b) hC
  have hsame : (clusterSize p : Int) * (offset + a).tdiv (clusterSize p) =
      clusterSize p * (offset + b).tdiv (clusterSize p) := by
    unfold wrapInt asSigned asUnsigned at h
    omega
  exact Int.eq_of_mul_eq_mul_left hC.ne' hsame

/-- The byte `pos` of a disk is 1 and all others are 0. -/
def markedImage (pos : Int) : DiskImage := fun sector i =>
  if sector * sectorSize + i = pos then 1 else 0

theorem byteAt_markedImage (pos q : Int) :
    byteAt (markedImage pos) q = if q = pos then 1 else 0 := by
  have hdiv := Int.mul_ediv_add_emod q sectorSize
  have hnonneg := Int.emod_nonneg q (show (sectorSize : Int) ≠ 0 by decide)
  have hq : q / sectorSize * sectorSize + ((q % sectorSize).toNat : Int) = q := by
    rw [Int.toNat_of_nonneg hnonneg, Int.mul_comm, hdiv]
  unfold byteAt markedImage
  rw [hq]

/-- Two reads that do not stop bring the same bytes from every disk exactly if their pieces
agree. -/
theorem readBytes_eq_iff {s₁ n₁ s₂ n₂ : ℕ} (hpos : 0 < clusterSize p)
    (hsmall : clusterSize p < 131072)
    (ho : wrapInt offset = offset) (hs₁ : 1 ≤ s₁) (hs₂ : 1 ≤ s₂) (htotal : s₁ * n₁ = s₂ * n₂)
    (hgo₁ : ¬ReadStops p cluster offset (s₁ * n₁) s₁)
    (hgo₂ : ¬ReadStops p cluster offset (s₁ * n₁) s₂) :
    (∀ image, readBytes image p cluster offset s₁ n₁ = readBytes image p cluster offset s₂ n₂) ↔
      ∀ j < s₁ * n₁, (offset + pieceStart (clusterSize p) s₁ j).tdiv (clusterSize p) =
        (offset + pieceStart (clusterSize p) s₂ j).tdiv (clusterSize p) := by
  simp only [readBytes_eq hpos ho, ← htotal, List.map_inj_left, List.mem_range]
  constructor
  · intro h j hj
    have hbyte := h (markedImage (wrapInt (startPos p cluster
      (wrapInt (offset + pieceStart (clusterSize p) s₁ j)) +
        (j - pieceStart (clusterSize p) s₁ j : ℕ)))) j hj
    rw [byteAt_markedImage, byteAt_markedImage, if_pos rfl] at hbyte
    have hsame := of_not_not fun hne => by
      rw [if_neg hne] at hbyte
      exact absurd hbyte (by decide)
    rw [offset_exact ho hsmall (offset_lt hs₁ hgo₁ hj),
      offset_exact ho hsmall (offset_lt hs₂ hgo₂ hj)] at hsame
    have hnear {s : ℕ} : pieceStart (clusterSize p) s j ≤ j ∧
        j < pieceStart (clusterSize p) s j + clusterSize p :=
      ⟨pieceStart_le _ _ _, le_pieceStart_add hpos s j⟩
    exact (piecePos_inj hpos hsmall hnear hnear hsame).symm
  · intro h image j hj
    rw [offset_exact ho hsmall (offset_lt hs₁ hgo₁ hj),
      offset_exact ho hsmall (offset_lt hs₂ hgo₂ hj), piecePos_eq (pieceStart_le _ _ _),
      piecePos_eq (pieceStart_le _ _ _), h j hj]

end Pieces

/-! ## `fat16_read` -/

/-- `fat16_read` returns the number of its items. -/
def ReadSucceeds (k : Kernel) (desc : FatFileDescriptor) (out size nmemb : ℕ) : Prop :=
  ∃ res k', fat16Read desc size nmemb out k = some (res, k') ∧ 0 ≤ res

/-- Whether a read of so many bytes succeeds, and what it stores, is the same for `n₁` items
of size `s₁` as for `n₂` items of size `s₂`. -/
structure ChunkingIndependent (k : Kernel) (desc : FatFileDescriptor) (out s₁ n₁ s₂ n₂ : ℕ) :
    Prop where
  succeeds : ReadSucceeds k desc out s₁ n₁ ↔ ReadSucceeds k desc out s₂ n₂
  bytes : ∀ res₁ k₁ res₂ k₂, fat16Read desc s₁ n₁ out k = some (res₁, k₁) → 0 ≤ res₁ →
    fat16Read desc s₂ n₂ out k = some (res₂, k₂) → 0 ≤ res₂ →
    ∀ j < s₁ * n₁, k₁.mem (out + j) = k₂.mem (out + j)

section Read

variable {k : Kernel} {desc : FatFileDescriptor} {a out nmemb : ℕ} {entry : List UInt8}

theorem fat16Read_served (hpos : 0 < clusterSize p) (hp : k.disk.fsPrivate = some p)
    (hunion : desc.item.union = .item a entry) (hone : 1 ≤ size) (hmemb : 1 ≤ nmemb)
    (htotal : size * nmemb < 2147483648) (hbuf : ReadBuffer out (size * nmemb))
    (hserved : ReadServed p (fat16GetFirstCluster entry) (asSigned desc.pos) size nmemb) :
    fat16Read desc size nmemb out k = some ((nmemb : Int), k.withBytes out
      (readBytes k.image p (fat16GetFirstCluster entry) (asSigned desc.pos) size nmemb)) := by
  have hsize : size ≤ size * nmemb := Nat.le_mul_of_pos_right _ hmemb
  have hn : nmemb ≤ size * nmemb := Nat.le_mul_of_pos_left _ hone
  have hloop := fat16ReadLoop_served hpos hone (asSigned_of_lt (by omega)) _ _ _ hp hbuf
    (wrapInt_asSigned _) hserved
  simp only [fat16Read, FatItem.entry, hunion, run_bind, run_pure, Option.bind_some, hloop,
    lt_irrefl, if_false]
  rw [asSigned_of_lt (by omega)]

theorem readServed_of_read (hpos : 0 < clusterSize p) (hp : k.disk.fsPrivate = some p)
    (hunion : desc.item.union = .item a entry) (hone : 1 ≤ size) (hsize : size < 2147483648) :
    Meets False (fat16Read desc size nmemb out) k fun res _ => 0 ≤ res →
      ReadServed p (fat16GetFirstCluster entry) (asSigned desc.pos) size nmemb := by
  simp only [fat16Read, FatItem.entry, hunion, Meets.bind_iff, Meets.pure_iff]
  refine (readServed_of_loop hpos hone (asSigned_of_lt hsize) hp (wrapInt_asSigned _)).mono
    fun res k' h => ?_
  simp only [Meets.ite_iff, Meets.pure_iff]
  exact ⟨fun hneg hnonneg => absurd hneg (not_lt.mpr hnonneg), fun hok _ => h (not_lt.mp hok)⟩

theorem readSucceeds_iff (hpos : 0 < clusterSize p) (hp : k.disk.fsPrivate = some p)
    (hunion : desc.item.union = .item a entry) (hone : 1 ≤ size) (hmemb : 1 ≤ nmemb)
    (htotal : size * nmemb < 2147483648) (hbuf : ReadBuffer out (size * nmemb)) :
    ReadSucceeds k desc out size nmemb ↔
      ReadServed p (fat16GetFirstCluster entry) (asSigned desc.pos) size nmemb := by
  have hsize : size ≤ size * nmemb := Nat.le_mul_of_pos_right _ hmemb
  constructor
  · rintro ⟨res, k', h, hres⟩
    exact (readServed_of_read hpos hp hunion hone (by omega)).of_eq h hres
  · intro h
    exact ⟨_, _, fat16Read_served hpos hp hunion hone hmemb htotal hbuf h, Int.natCast_nonneg _⟩

/-- Without a cluster size nothing can be read. -/
theorem not_readSucceeds_of_zero (out size : ℕ) (h0 : clusterSize p = 0)
    (hp : k.disk.fsPrivate = some p)
    (hunion : desc.item.union = .item a entry) (hmemb : 1 ≤ nmemb) :
    ¬ReadSucceeds k desc out size nmemb := by
  rintro ⟨res, k', h, -⟩
  obtain ⟨n, rfl⟩ : ∃ n, nmemb = n + 1 := ⟨nmemb - 1, by omega⟩
  have hnone (c o t : Int) : fat16ReadInternal k.image p c o t = none := by
    rw [fat16ReadInternal, fat16ReadInternalFromStream, fat16GetClusterForOffset,
      sizeOfClusterBytes_eq, h0]
    rfl
  have hfails : Meets False (fat16Read desc size (n + 1) out) k fun _ _ => False := by
    simp [fat16Read, FatItem.entry, hunion, fat16ReadLoop, hp, hnone]
  exact hfails.of_eq h

/-- Two ways of cutting `total` bytes into items agree : either both reads stop or neither does, and
where neither does each byte lies in pieces that begin in the same cluster size of the file. -/
structure CutsAgree (p : FatPrivate) (cluster offset : Int) (total s₁ s₂ : ℕ) : Prop where
  stops : ReadStops p cluster offset total s₁ ↔ ReadStops p cluster offset total s₂
  same : ¬ReadStops p cluster offset total s₁ → ∀ j < total,
    (offset + pieceStart (clusterSize p) s₁ j).tdiv (clusterSize p) =
      (offset + pieceStart (clusterSize p) s₂ j).tdiv (clusterSize p)

/-- From an offset of the first 2 GiB all pieces begin in the first cluster. -/
theorem CutsAgree.of_stops {offset total s₁ s₂ : ℕ} (hs₁ : 1 ≤ s₁) (hs₂ : 1 ≤ s₂)
    (h : ReadStops p cluster offset total s₁ ↔ ReadStops p cluster offset total s₂) :
    CutsAgree p cluster offset total s₁ s₂ where
  stops := h
  same hgo j hj := by
    have hin₁ := offset_lt hs₁ hgo hj
    have hin₂ := offset_lt hs₂ (h.not.mp hgo) hj
    rw [Int.tdiv_eq_zero_of_lt (by omega) hin₁, Int.tdiv_eq_zero_of_lt (by omega) hin₂]

section Cuts

variable {s₁ n₁ s₂ n₂ : ℕ}

/-- On one disk : the reads stop or not, and bring their bytes. -/
theorem chunkingIndependent_iff (hp : k.disk.fsPrivate = some p) (hpos : 0 < clusterSize p)
    (hsmall : clusterSize p < 131072) (hunion : desc.item.union = .item a entry) (hs₁ : 1 ≤ s₁)
    (hn₁ : 1 ≤ n₁) (hs₂ : 1 ≤ s₂) (hn₂ : 1 ≤ n₂) (htotal : s₁ * n₁ = s₂ * n₂)
    (hlt : s₁ * n₁ < 2147483648) (hbuf : ReadBuffer out (s₁ * n₁)) :
    ChunkingIndependent k desc out s₁ n₁ s₂ n₂ ↔
      (ReadStops p (fat16GetFirstCluster entry) (asSigned desc.pos) (s₁ * n₁) s₁ ↔
        ReadStops p (fat16GetFirstCluster entry) (asSigned desc.pos) (s₁ * n₁) s₂) ∧
      (¬ReadStops p (fat16GetFirstCluster entry) (asSigned desc.pos) (s₁ * n₁) s₁ →
        readBytes k.image p (fat16GetFirstCluster entry) (asSigned desc.pos) s₁ n₁ =
          readBytes k.image p (fat16GetFirstCluster entry) (asSigned desc.pos) s₂ n₂) := by
  have ho := wrapInt_asSigned desc.pos
  have hserved₁ : ReadServed p (fat16GetFirstCluster entry) (asSigned desc.pos) s₁ n₁ ↔ _ :=
    readServed_iff hpos hsmall ho hs₁ hn₁ hlt
  have hserved₂ : ReadServed p (fat16GetFirstCluster entry) (asSigned desc.pos) s₂ n₂ ↔ _ :=
    readServed_iff hpos hsmall ho hs₂ hn₂ (htotal ▸ hlt)
  rw [← htotal] at hserved₂
  have hsucceeds₁ := (readSucceeds_iff hpos hp hunion hs₁ hn₁ hlt hbuf).trans hserved₁
  have hsucceeds₂ :=
    (readSucceeds_iff hpos hp hunion hs₂ hn₂ (htotal ▸ hlt) (htotal ▸ hbuf)).trans hserved₂
  have hstops : (ReadStops p (fat16GetFirstCluster entry) (asSigned desc.pos) (s₁ * n₁) s₁ ↔
      ReadStops p (fat16GetFirstCluster entry) (asSigned desc.pos) (s₁ * n₁) s₂) ↔
        (ReadSucceeds k desc out s₁ n₁ ↔ ReadSucceeds k desc out s₂ n₂) := by
    rw [hsucceeds₁, hsucceeds₂, not_iff_not]
  rw [hstops, ← hsucceeds₁]
  constructor
  · intro h
    refine ⟨h.succeeds, fun hok => ?_⟩
    have hrun₁ := fat16Read_served hpos hp hunion hs₁ hn₁ hlt hbuf
      (hserved₁.mpr (hsucceeds₁.mp hok))
    have hrun₂ := fat16Read_served hpos hp hunion hs₂ hn₂ (htotal ▸ hlt) (htotal ▸ hbuf)
      (hserved₂.mpr (hsucceeds₂.mp (h.succeeds.mp hok)))
    have hbytes := h.bytes _ _ _ _ hrun₁ (Int.natCast_nonneg _) hrun₂ (Int.natCast_nonneg _)
    refine List.ext_getElem (by simp [htotal]) fun j hj hj' => ?_
    have hj₀ : j < s₁ * n₁ := by simpa using hj
    have := hbytes j hj₀
    simp only [Kernel.withBytes_mem, length_readBytes, Nat.le_add_right, true_and,
      Nat.add_lt_add_iff_left, hj₀, htotal ▸ hj₀, if_true, Nat.add_sub_cancel_left] at this
    rwa [List.getD_eq_getElem _ _ hj, List.getD_eq_getElem _ _ hj'] at this
  · rintro ⟨hboth, hsame⟩
    refine ⟨hboth, fun res₁ k₁ res₂ k₂ h₁ hres₁ h₂ hres₂ j hj => ?_⟩
    have hok : ReadSucceeds k desc out s₁ n₁ := ⟨res₁, k₁, h₁, hres₁⟩
    rw [fat16Read_served hpos hp hunion hs₁ hn₁ hlt hbuf (hserved₁.mpr (hsucceeds₁.mp hok))] at h₁
    rw [fat16Read_served hpos hp hunion hs₂ hn₂ (htotal ▸ hlt) (htotal ▸ hbuf)
      (hserved₂.mpr (hsucceeds₂.mp (hboth.mp hok)))] at h₂
    obtain ⟨-, rfl⟩ := Prod.mk.inj (Option.some.inj h₁)
    obtain ⟨-, rfl⟩ := Prod.mk.inj (Option.some.inj h₂)
    rw [hsame hok]

/-- How the bytes are cut into items does not matter exactly if the cuts agree : on every disk, and
from positions below 2 ^ 31 on each disk for itself. -/
theorem fat16Read_chunking_iff (hp : k.disk.fsPrivate = some p)
    (hsectors : p.header.sectorsPerCluster < 256) (hunion : desc.item.union = .item a entry)
    (hs₁ : 1 ≤ s₁) (hn₁ : 1 ≤ n₁) (hs₂ : 1 ≤ s₂) (hn₂ : 1 ≤ n₂) (htotal : s₁ * n₁ = s₂ * n₂)
    (hlt : s₁ * n₁ < 2147483648) (hbuf : ReadBuffer out (s₁ * n₁)) :
    ((∀ image, ChunkingIndependent { k with image := image } desc out s₁ n₁ s₂ n₂) ↔
      (0 < p.header.sectorsPerCluster →
        CutsAgree p (fat16GetFirstCluster entry) (asSigned desc.pos) (s₁ * n₁) s₁ s₂)) ∧
    (desc.pos < 2147483648 → (ChunkingIndependent k desc out s₁ n₁ s₂ n₂ ↔
      (0 < p.header.sectorsPerCluster →
        CutsAgree p (fat16GetFirstCluster entry) (asSigned desc.pos) (s₁ * n₁) s₁ s₂))) := by
  rcases Nat.eq_zero_or_pos p.header.sectorsPerCluster with h0 | hpos
  · have hzero : clusterSize p = 0 := by simp [clusterSize, h0]
    have hnone {k : Kernel} (hp : k.disk.fsPrivate = some p) :
        ChunkingIndependent k desc out s₁ n₁ s₂ n₂ := by
      have hfails₁ := not_readSucceeds_of_zero out s₁ hzero hp hunion hn₁
      have hfails₂ := not_readSucceeds_of_zero out s₂ hzero hp hunion hn₂
      exact ⟨iff_of_false hfails₁ hfails₂, fun res₁ k₁ _ _ h hres =>
        absurd ⟨res₁, k₁, h, hres⟩ hfails₁⟩
    exact ⟨iff_of_true (fun _ => hnone hp) fun hpos => absurd h0 hpos.ne',
      fun _ => iff_of_true (hnone hp) fun hpos => absurd h0 hpos.ne'⟩
  have hsize := clusterSize_pos.mpr hpos
  have hsmall := clusterSize_lt hsectors
  have hone {k : Kernel} (hp : k.disk.fsPrivate = some p) :=
    chunkingIndependent_iff hp hsize hsmall hunion hs₁ hn₁ hs₂ hn₂ htotal hlt hbuf
  simp only [hpos, true_imp_iff]
  refine ⟨⟨fun h => ?_, fun h image => (hone (by exact hp)).mpr ?_⟩, fun hlow => ?_⟩
  · have hstops := ((hone (k := k) hp).mp (h k.image)).1
    refine ⟨hstops, fun hgo => ?_⟩
    refine (readBytes_eq_iff hsize hsmall (wrapInt_asSigned _) hs₁ hs₂ htotal hgo
      (hstops.not.mp hgo)).mp fun image => ?_
    exact ((hone (k := { k with image := image }) hp).mp (h image)).2 hgo
  · refine ⟨h.stops, fun hgo => ?_⟩
    exact (readBytes_eq_iff hsize hsmall (wrapInt_asSigned _) hs₁ hs₂ htotal hgo
      (h.stops.not.mp hgo)).mpr (h.same hgo) image
  · rw [hone hp, asSigned_of_lt hlow]
    constructor
    · exact fun h => .of_stops hs₁ hs₂ h.1
    · refine fun h => ⟨h.stops, fun hgo => ?_⟩
      have ho : wrapInt (desc.pos : Int) = desc.pos := wrapInt_of_range (by omega) (by omega)
      exact (readBytes_eq_iff hsize hsmall ho hs₁ hs₂ htotal hgo (h.stops.not.mp hgo)).mpr
        (h.same hgo) k.image

end Cuts

end Read

/-! ## A file of two clusters -/

/-- The entry of a file of 1024 bytes from cluster 2 on. -/
def longFileEntry (c : UInt8) : List UInt8 :=
  [c, 32, 32, 32, 32, 32, 32, 32, 32, 32, 32, 0, 0, 0, 0, 0,
    0, 0, 0, 0, 0, 0, 0, 0, 0, 0, 2, 0, 0, 4, 0, 0]

/-- The state in which the volume with the file is mounted. -/
def chainKernel : Kernel := { Kernel.empty with
  image := chainVolume (longFileEntry 65) []
  disk := ⟨true, some smallPrivate⟩ }

/-- The file, open at `pos`. -/
def longFile (pos : ℕ) : FatFileDescriptor :=
  ⟨4096, ⟨8192, .item 12288 (longFileEntry 65), .file⟩, pos⟩

/-- Where a read of the first cluster stops. -/
theorem stops_longFile {pos size total : ℕ} (hpos : pos < 512) (hsize : 1 ≤ size) :
    ReadStops smallPrivate (fat16GetFirstCluster (longFileEntry 65)) pos total size ↔
      512 ≤ pos + pieceStart 512 size (total - 1) := by
  have hcluster : clusterSize smallPrivate = 512 := by decide
  have hdata : dataPos smallPrivate (fat16GetFirstCluster (longFileEntry 65)) = 1536 := by decide
  unfold ReadStops
  rw [hcluster]
  refine ⟨fun h => ?_, fun h => .inl (by omega)⟩
  by_contra hlt
  rcases h with hbehind | ⟨j, hj, hno⟩
  · omega
  · have hmono := pieceStart_mono (c := 512) hsize (show j ≤ total - 1 by omega)
    refine hno (.inl ?_)
    rw [← Int.natCast_add, startPos_of_lt (by omega), hdata, wrapInt_of_range (by omega) (by omega)]
    omega

/-- The first two bytes can be read in either way. -/
theorem fat16Read_chunking_two : ChunkingIndependent chainKernel (longFile 0) 16384 1 2 2 1 ∧
    ∀ image,
      ChunkingIndependent { chainKernel with image := image } (longFile 0) 16384 1 2 2 1 := by
  have hagree : CutsAgree smallPrivate (fat16GetFirstCluster (longFileEntry 65)) (0 : ℕ)
    (1 * 2) 1 2 :=
    .of_stops (by decide) (by decide) (by
      rw [stops_longFile (by decide) (by decide), stops_longFile (by decide) (by decide)]
      decide)
  have h {k : Kernel} (hp : k.disk.fsPrivate = some smallPrivate) :=
    fat16Read_chunking_iff hp (by decide) (show (longFile 0).item.union = _ from rfl)
      (show 1 ≤ 1 by decide) (show 1 ≤ 2 by decide) (show 1 ≤ 2 by decide) (show 1 ≤ 1 by decide)
      (by decide) (by decide) (show ReadBuffer 16384 (1 * 2) from ⟨by decide, by decide⟩)
  exact ⟨((h (k := chainKernel) rfl).2 (by decide)).mpr fun _ => hagree,
    (h (k := chainKernel) rfl).1.mpr fun _ => hagree⟩

/-- Two bytes over the edge of the first cluster can be read as one item but not as two. -/
theorem fat16Read_chunking_not_always : ¬∀ (k : Kernel) (p : FatPrivate)
    (desc : FatFileDescriptor) (a out s₁ n₁ s₂ n₂ : ℕ) (entry : List UInt8),
    k.disk.fsPrivate = some p → p.header.sectorsPerCluster < 256 →
    desc.item.union = .item a entry → 1 ≤ s₁ → 1 ≤ n₁ → 1 ≤ s₂ → 1 ≤ n₂ → s₁ * n₁ = s₂ * n₂ →
    s₁ * n₁ < 2147483648 → ReadBuffer out (s₁ * n₁) →
      ChunkingIndependent k desc out s₁ n₁ s₂ n₂ := by
  intro hall
  have h := hall chainKernel smallPrivate (longFile 511) 12288 16384 2 1 1 2 (longFileEntry 65) rfl
    (by decide) rfl (by decide) (by decide) (by decide) (by decide) (by decide) (by decide)
    ⟨by decide, by decide⟩
  have hstops := ((chunkingIndependent_iff (p := smallPrivate) rfl (by decide) (by decide) rfl
    (by decide) (by decide) (by decide) (by decide) (by decide) (by decide)
    ⟨by decide, by decide⟩).mp h).1
  rw [show asSigned (longFile 511).pos = ((511 : ℕ) : Int) from rfl,
    stops_longFile (by decide) (by decide), stops_longFile (by decide) (by decide)] at hstops
  exact absurd hstops (by decide)

end Hyperion
