import Hyperion.Fat16Spec

/-!
# The count of the entries of a directory

`fat16_get_total_items_for_directory` goes over the entries from a position on, in a straight
line over the disk, up to the first whose name begins with zero, and counts those that are
not deleted (`fat16GetTotalItemsForDirectory_eq_some_iff`). It ends for a directory only
because there is such an entry somewhere behind it.

`EndsAt` is the end : entry `n` is the first that begins with zero, and the stream gets there.
Positions are 32-bit, so that they come around after `2 ^ 27` entries (`entryPos_period`), and a
count that has not ended by then goes on for ever (`EndsAt.lt`). `endsAt_succ_iff` moves the end by
one entry and is the induction step of the loop. `fat16GetTotalItemsForDirectory_eq` is the count
of a directory whose content is known.
-/

namespace Hyperion

section Scan

variable (image : DiskImage)

/-! ## The entries on the way -/

/-- The position of entry `i` from `pos` on. -/
def entryPos (pos : Int) (i : ℕ) : Int := wrapInt (pos + (directoryItemSize * i : ℕ))

/-- The first byte of the name of entry `i`. -/
def entryMark (pos : Int) (i : ℕ) : UInt8 := byteAt image (entryPos pos i)

/-- Entry `n` is the first whose name begins with zero, and the stream gets there. -/
structure EndsAt (pos : Int) (n : ℕ) : Prop where
  readable : ∀ i ≤ n, Readable (entryPos pos i)
  entries : ∀ i < n, entryMark image pos i ≠ 0
  terminator : entryMark image pos n = 0

/-- The number of entries that are not deleted among the first `n`. -/
def liveAmong (pos : Int) (n : ℕ) : ℕ := (List.range n).countP fun i => entryMark image pos i ≠ 0xE5

variable {image} {pos : Int} {n m : ℕ}

/-- The first entry is where the directory begins. -/
theorem entryPos_zero (hpos : wrapInt pos = pos) : entryPos pos 0 = pos := by
  rw [entryPos, Nat.mul_zero, Int.natCast_zero, Int.add_zero, hpos]

/-- Behind the first entry the numbers move by one. -/
theorem entryPos_succ (pos : Int) (i : ℕ) :
    entryPos (wrapInt (pos + directoryItemSize)) i = entryPos pos (i + 1) := by
  rw [entryPos, entryPos, wrapInt_wrapInt_add, Int.add_assoc, ← Int.natCast_add]
  congr 3
  ring

/-- So do the first bytes. -/
theorem entryMark_succ (pos : Int) (i : ℕ) :
    entryMark image (wrapInt (pos + directoryItemSize)) i = entryMark image pos (i + 1) := by
  rw [entryMark, entryMark, entryPos_succ]

/-- Positions at a distance of `2 ^ 27` entries are the same. -/
theorem entryPos_period (pos : Int) (i : ℕ) : entryPos pos (i + 134217728) = entryPos pos i := by
  unfold entryPos directoryItemSize wrapInt asSigned asUnsigned
  omega

/-- A directory ends once. -/
theorem EndsAt.unique (h : EndsAt image pos n) (h' : EndsAt image pos m) : n = m := by
  rcases Nat.lt_trichotomy n m with hlt | heq | hlt
  · exact absurd h.terminator (h'.entries n hlt)
  · exact heq
  · exact absurd h'.terminator (h.entries m hlt)

/-- It ends before the positions come around. -/
theorem EndsAt.lt (h : EndsAt image pos n) : n < 134217728 := by
  by_contra hge
  refine h.entries (n - 134217728) (by omega) ?_
  have hperiod := entryPos_period pos (n - 134217728)
  rw [Nat.sub_add_cancel (not_lt.mp hge)] at hperiod
  rw [entryMark, ← hperiod]
  exact h.terminator

/-- It ends at its first entry if this is zero. -/
theorem endsAt_zero_iff (hpos : wrapInt pos = pos) :
    EndsAt image pos 0 ↔ Readable pos ∧ byteAt image pos = 0 := by
  have hfirst := entryPos_zero hpos
  constructor
  · intro h
    exact ⟨hfirst ▸ h.readable 0 le_rfl, hfirst ▸ h.terminator⟩
  · rintro ⟨hread, hzero⟩
    refine ⟨fun i hi => ?_, fun i hi => absurd hi (Nat.not_lt_zero i), ?_⟩
    · rwa [Nat.le_zero.mp hi, hfirst]
    · rwa [entryMark, hfirst]

/-- Or else behind it. -/
theorem endsAt_succ_iff (hpos : wrapInt pos = pos) : EndsAt image pos (n + 1) ↔
    Readable pos ∧ byteAt image pos ≠ 0 ∧ EndsAt image (wrapInt (pos + directoryItemSize)) n := by
  have hfirst := entryPos_zero hpos
  constructor
  · intro h
    refine ⟨hfirst ▸ h.readable 0 (Nat.zero_le _), hfirst ▸ h.entries 0 (Nat.succ_pos _), ?_⟩
    refine ⟨fun i hi => ?_, fun i hi => ?_, ?_⟩
    · rw [entryPos_succ]
      exact h.readable (i + 1) (by omega)
    · rw [entryMark_succ]
      exact h.entries (i + 1) (by omega)
    · rw [entryMark_succ]
      exact h.terminator
  · rintro ⟨hread, hne, h⟩
    refine ⟨fun i hi => ?_, fun i hi => ?_, ?_⟩
    · cases i with
      | zero => rwa [hfirst]
      | succ i => exact entryPos_succ pos i ▸ h.readable i (by omega)
    · cases i with
      | zero => rwa [entryMark, hfirst]
      | succ i => exact entryMark_succ pos i ▸ h.entries i (by omega)
    · exact entryMark_succ pos n ▸ h.terminator

/-- No more entries are live than there are. -/
theorem liveAmong_le (image : DiskImage) (pos : Int) (n : ℕ) : liveAmong image pos n ≤ n := by
  simpa [liveAmong] using List.countP_le_length (l := List.range n)
    (p := fun i => entryMark image pos i ≠ 0xE5)

/-- The first entry is counted if it is not deleted. -/
theorem liveAmong_succ (hpos : wrapInt pos = pos) : liveAmong image pos (n + 1) =
    (if byteAt image pos ≠ 0xE5 then 1 else 0) +
      liveAmong image (wrapInt (pos + directoryItemSize)) n := by
  have hfirst : entryMark image pos 0 = byteAt image pos := by rw [entryMark, entryPos_zero hpos]
  simp only [liveAmong, List.range_succ_eq_map, List.countP_cons, List.countP_map,
    Function.comp_def, Nat.succ_eq_add_one, entryMark_succ, hfirst, decide_eq_true_eq]
  exact Nat.add_comm _ _

/-! ## The loop -/

/-- One round of the count. -/
theorem fat16GetTotalItemsLoop_step (fuel : ℕ) (c : Int) (hpos : wrapInt pos = pos) :
    fat16GetTotalItemsLoop image (fuel + 1) ⟨pos⟩ c =
      if Readable pos then
        if byteAt image pos = 0 then some c
        else fat16GetTotalItemsLoop image fuel ⟨wrapInt (pos + directoryItemSize)⟩
          (c + if byteAt image pos ≠ 0xE5 then 1 else 0)
      else none := by
  have hfirst : charAt (bytesAt image pos directoryItemSize) 0 = byteAt image pos := by
    simp [charAt, bytesAt, hpos, directoryItemSize, List.getD_eq_getElem?_getD]
  rw [fat16GetTotalItemsLoop]
  split_ifs with hread h0 hdel
  · rw [diskstreamerRead_bytesAt image hpos fun _ => hread, Int.toNat_natCast]
    simp only [Option.bind_eq_bind, Option.bind_some, hfirst, h0, if_true, Option.pure_def]
  · rw [diskstreamerRead_bytesAt image hpos fun _ => hread, Int.toNat_natCast]
    simp only [Option.bind_eq_bind, Option.bind_some, hfirst, h0, if_false, hdel]
  · rw [diskstreamerRead_bytesAt image hpos fun _ => hread, Int.toNat_natCast]
    simp only [Option.bind_eq_bind, Option.bind_some, hfirst, h0, if_false]
    rw [if_pos (not_not.mp hdel), Int.add_zero]
  · rw [diskstreamerRead_eq_none image (by decide) hread]
    rfl

/-- Counting comes to a result at a terminator, and counts the live entries before it. -/
theorem fat16GetTotalItemsLoop_eq_some_iff : ∀ {fuel : ℕ} {pos c t : Int}, wrapInt pos = pos →
    (fat16GetTotalItemsLoop image fuel ⟨pos⟩ c = some t ↔
      ∃ n < fuel, EndsAt image pos n ∧ t = c + liveAmong image pos n)
  | 0, pos, c, t, _ => by
    rw [fat16GetTotalItemsLoop]
    exact iff_of_false (by simp) fun ⟨n, hn, _⟩ => absurd hn (Nat.not_lt_zero n)
  | fuel + 1, pos, c, t, hpos => by
    rw [fat16GetTotalItemsLoop_step fuel c hpos]
    by_cases hread : Readable pos
    swap
    · rw [if_neg hread]
      refine iff_of_false (by simp) ?_
      rintro ⟨n, -, hends, -⟩
      exact hread (entryPos_zero hpos ▸ hends.readable 0 (Nat.zero_le n))
    rw [if_pos hread]
    by_cases h0 : byteAt image pos = 0
    · have hfirst : EndsAt image pos 0 := (endsAt_zero_iff hpos).mpr ⟨hread, h0⟩
      rw [if_pos h0, Option.some.injEq]
      constructor
      · rintro rfl
        exact ⟨0, by omega, hfirst, by simp [liveAmong]⟩
      · rintro ⟨n, -, hends, rfl⟩
        obtain rfl := hends.unique hfirst
        simp [liveAmong]
    · rw [if_neg h0, fat16GetTotalItemsLoop_eq_some_iff (wrapInt_wrapInt _)]
      have hcount (n : ℕ) : c + (liveAmong image pos (n + 1) : Int) =
          c + (if byteAt image pos ≠ 0xE5 then 1 else 0) +
            liveAmong image (wrapInt (pos + directoryItemSize)) n := by
        rw [liveAmong_succ hpos, Int.add_assoc, Int.natCast_add]
        split_ifs <;> rfl
      constructor
      · rintro ⟨n, hn, hends, rfl⟩
        exact ⟨n + 1, by omega, (endsAt_succ_iff hpos).mpr ⟨hread, h0, hends⟩, (hcount n).symm⟩
      · rintro ⟨n, hn, hends, rfl⟩
        cases n with
        | zero => exact absurd ((endsAt_zero_iff hpos).mp hends).2 h0
        | succ n => exact ⟨n, by omega, ((endsAt_succ_iff hpos).mp hends).2.2, hcount n⟩

/-- The count is that of the live entries before the end, from the position of the sector on. -/
theorem fat16GetTotalItemsForDirectory_eq_some_iff {sector t : Int} :
    fat16GetTotalItemsForDirectory image sector = some t ↔
      ∃ n, EndsAt image (wrapInt (sector * sectorSize)) n ∧
        t = liveAmong image (wrapInt (sector * sectorSize)) n := by
  rw [fat16GetTotalItemsForDirectory, diskstreamerSeek,
    fat16GetTotalItemsLoop_eq_some_iff (wrapInt_wrapInt _)]
  constructor
  · rintro ⟨n, -, hends, ht⟩
    exact ⟨n, hends, by omega⟩
  · rintro ⟨n, hends, ht⟩
    exact ⟨n, hends.lt, hends, by omega⟩

end Scan

/-! ## Directories below 2 GiB -/

section Below

variable (image : DiskImage)

/-- The number of live entries among the `n` entries from a position on. -/
def liveEntries (pos n : ℕ) : ℕ :=
  (List.range n).countP fun i => diskByte image (pos + directoryItemSize * i) ≠ 0xE5

/-- No more entries are live than there are. -/
theorem liveEntries_le (pos n : ℕ) : liveEntries image pos n ≤ n := by
  simpa [liveEntries] using List.countP_le_length (l := List.range n)
    (p := fun i => diskByte image (pos + directoryItemSize * i) ≠ 0xE5)

/-- Without overflow an entry is where its number says. -/
theorem entryPos_natCast {pos i : ℕ} (h : pos + directoryItemSize * i < 2147483648) :
    entryPos pos i = (pos + directoryItemSize * i : ℕ) := by
  rw [entryPos, ← Int.natCast_add, wrapInt_of_range (by omega) (by omega)]

/-- A directory of `n` entries before the terminator. -/
theorem fat16GetTotalItemsForDirectory_eq {n sector : ℕ}
    (hend : sector * sectorSize + directoryItemSize * (n + 1) < 2147483648)
    (hentries : ∀ i < n, diskByte image (sector * sectorSize + directoryItemSize * i) ≠ 0)
    (hlast : diskByte image (sector * sectorSize + directoryItemSize * n) = 0) :
    fat16GetTotalItemsForDirectory image sector =
      some (liveEntries image (sector * sectorSize) n : Int) := by
  have hpos : wrapInt ((sector : Int) * sectorSize) = (sector * sectorSize : ℕ) := by
    rw [← Int.natCast_mul, wrapInt_of_range (by omega) (by omega)]
  have hentry (i : ℕ) (hi : i ≤ n) : entryPos (sector * sectorSize : ℕ) i =
      (sector * sectorSize + directoryItemSize * i : ℕ) := by
    refine entryPos_natCast ?_
    unfold directoryItemSize at *
    omega
  have hmark (i : ℕ) (hi : i ≤ n) : entryMark image (sector * sectorSize : ℕ) i =
      diskByte image (sector * sectorSize + directoryItemSize * i) := by
    rw [entryMark, hentry i hi, byteAt_natCast]
  refine fat16GetTotalItemsForDirectory_eq_some_iff.mpr ⟨n, ?_, ?_⟩
  · rw [hpos]
    refine ⟨fun i hi => ?_, fun i hi => ?_, ?_⟩
    · rw [hentry i hi]
      exact .inl (Int.natCast_nonneg _)
    · rw [hmark i hi.le]
      exact hentries i hi
    · rw [hmark n le_rfl]
      exact hlast
  · rw [hpos, liveEntries, liveAmong]
    refine congrArg Nat.cast (List.countP_congr fun i hi => ?_)
    rw [hmark i (List.mem_range.mp hi).le]

end Below

end Hyperion
