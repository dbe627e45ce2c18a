import Hyperion.ProcessHeap

/-!
# Where the segments of an ELF file are mapped

Every program header maps a range of pages. The number of pages is computed from the physical
side, and is that of the virtual side because an address and its place in the file have the same
offset in their pages. When the ranges are apart, each page of a segment ends up with the entry of
that segment, and the other pages with the entry they had (`mapSegments_cases`).

The entry leads to the place in the file and carries the flags that the segment asks for, present
and accessible from user mode, and writeable if it has the flag of a segment to write. The low bits
of an entry are its flags (`or_and_flags`), and the address is what is above them, so that the
addresses of a segment lead to its bytes (`ElfFile.SegmentFits.translate_segment`).
`processMapElf_segments` is the result for the whole file.
-/

namespace Hyperion

open Partial

variable {k k' : Kernel} {process : ℕ} {p : Process} {t : Task} {d : ℕ} {f e : ℕ → ℕ}
  {file : ElfFile} {m : ℕ → UInt8} {i n : ℕ}

/-! ## The headers -/

/-- The address of the program header number `i`. -/
def ElfFile.phdr (file : ElfFile) (m : ℕ → UInt8) (i : ℕ) : ℕ :=
  ((elfPheader file.elfMemory).value m + phdrSize * i) % 4294967296

/-- `p_vaddr` of the program header number `i`. -/
def ElfFile.vaddr (file : ElfFile) (m : ℕ → UInt8) (i : ℕ) : ℕ := (pVaddr (file.phdr m i)).value m

/-- `p_offset` of the program header number `i`, as an unsigned word. -/
def ElfFile.offset (file : ElfFile) (m : ℕ → UInt8) (i : ℕ) : ℕ := (pOffset (file.phdr m i)).value m

/-- `p_memsz` of the program header number `i`. -/
def ElfFile.memsz (file : ElfFile) (m : ℕ → UInt8) (i : ℕ) : ℕ := (pMemsz (file.phdr m i)).value m

/-- `p_flags` of the program header number `i`. -/
def ElfFile.pflags (file : ElfFile) (m : ℕ → UInt8) (i : ℕ) : ℕ := (pFlags (file.phdr m i)).value m

/-- The flags that `process_map_elf` maps the segment `i` with. -/
def ElfFile.pageFlags (file : ElfFile) (m : ℕ → UInt8) (i : ℕ) : ℕ :=
  if file.pflags m i &&& pfW ≠ 0 then pagingIsPresent ||| pagingAccessFromAll ||| pagingIsWriteable
  else pagingIsPresent ||| pagingAccessFromAll

theorem elfSegment_eq (file : ElfFile) (m : ℕ → UInt8) (i : ℕ) :
    elfSegment file m i = (pagingAlignToLowerPage (file.vaddr m i),
      pagingAlignToLowerPage ((file.elfMemory + file.offset m i) % 4294967296),
      pagingAlignAddress (((file.elfMemory + file.offset m i) % 4294967296 + file.memsz m i) %
        4294967296), file.pageFlags m i) := by
  simp only [elfSegment, elfMapping, elfPhdrPhysAddress, Probe.value_bind, Probe.value_pure,
    ElfFile.pageFlags, ElfFile.pflags, ElfFile.vaddr, ElfFile.offset, ElfFile.memsz, ElfFile.phdr]
  congr 4

/-- Page `n` is in the page range of the segment `i`, from `p_vaddr` rounded down to
`p_vaddr + p_memsz` rounded up. -/
def ElfFile.InSegment (file : ElfFile) (m : ℕ → UInt8) (i n : ℕ) : Prop :=
  file.vaddr m i / 4096 ≤ n ∧ n < (file.vaddr m i + file.memsz m i + 4095) / 4096

/-- The program headers agree with the file page by page, none wraps around and their page
ranges are apart. -/
structure ElfFile.Aligned (file : ElfFile) (m : ℕ → UInt8) : Prop where
  elfMemory : file.elfMemory % 4096 = 0
  congruent : ∀ i < file.segments m, file.vaddr m i % 4096 = file.offset m i % 4096
  offset : ∀ i < file.segments m, file.offset m i < 2147483648
  virt : ∀ i < file.segments m, file.vaddr m i + file.memsz m i ≤ 4294967296
  phys : ∀ i < file.segments m, file.elfMemory + file.offset m i + file.memsz m i ≤ 4294963200
  apart : ∀ i < file.segments m, ∀ j < file.segments m, ∀ n, file.InSegment m i n →
    file.InSegment m j n → i = j

/-- The header `i` agrees with the file page by page, and does not wrap around. -/
structure ElfFile.SegmentFits (file : ElfFile) (m : ℕ → UInt8) (i : ℕ) : Prop where
  elfMemory : file.elfMemory % 4096 = 0
  congruent : file.vaddr m i % 4096 = file.offset m i % 4096
  virt : file.vaddr m i + file.memsz m i ≤ 4294967296
  phys : file.elfMemory + file.offset m i + file.memsz m i ≤ 4294963200

theorem ElfFile.Aligned.segmentFits (h : file.Aligned m) (hi : i < file.segments m) :
    file.SegmentFits m i :=
  ⟨h.elfMemory, h.congruent i hi, h.virt i hi, h.phys i hi⟩

/-- The entry of page `n` of the segment `i`. -/
def ElfFile.segmentEntry (file : ElfFile) (m : ℕ → UInt8) (i n : ℕ) : ℕ :=
  (pagingAlignToLowerPage (file.elfMemory + file.offset m i) +
    (n - file.vaddr m i / 4096) * 4096) ||| file.pageFlags m i

/-! ## The pages -/

theorem ElfFile.vaddr_lt : file.vaddr m i < 4294967296 := word32_ensures _ m

/-- One segment : its pages get its entries, the others keep theirs. -/
theorem mapTo_elfSegment (h : file.SegmentFits m i) (e : ℕ → ℕ) (n : ℕ) :
    (file.InSegment m i n ∧ mapTo e (elfSegment file m i).1 (elfSegment file m i).2.1
        (elfSegment file m i).2.2.1 (elfSegment file m i).2.2.2 n = file.segmentEntry m i n) ∨
      (¬file.InSegment m i n ∧ mapTo e (elfSegment file m i).1 (elfSegment file m i).2.1
        (elfSegment file m i).2.2.1 (elfSegment file m i).2.2.2 n = e n) := by
  have hmod := h.elfMemory
  have hcongr := h.congruent
  have hvirt := h.virt
  have hphys := h.phys
  have hlt : file.vaddr m i < 4294967296 := ElfFile.vaddr_lt
  rw [elfSegment_eq]
  unfold ElfFile.InSegment ElfFile.segmentEntry
  simp only
  generalize file.vaddr m i = v at *
  generalize file.offset m i = o at *
  generalize file.memsz m i = size at *
  generalize file.pageFlags m i = flags
  rw [Nat.mod_eq_of_lt (show file.elfMemory + o < 4294967296 by omega),
    Nat.mod_eq_of_lt (show file.elfMemory + o + size < 4294967296 by omega)]
  generalize hP : file.elfMemory + o = P at *
  have hvp : v % 4096 = P % 4096 := by omega
  have hbase : pagingAlignToLowerPage P % 4096 = 0 := pagingAlignToLowerPage_mod P
  have hdiv : pagingAlignToLowerPage v / 4096 = v / 4096 := pagingAlignToLowerPage_div v
  have hlow : pagingAlignToLowerPage P = P / 4096 * 4096 := by
    unfold pagingAlignToLowerPage
    omega
  have hend : pagingAlignAddress (P + size) = (P + size + 4095) / 4096 * 4096 := by
    unfold pagingAlignAddress
    split_ifs <;> omega
  have hcount : (pagingAlignAddress (P + size) - pagingAlignToLowerPage P) / 4096 =
      (v + size + 4095) / 4096 - v / 4096 := by
    rw [hend, hlow]
    omega
  have hafter : ∀ x < (v + size + 4095) / 4096 - v / 4096,
      pageAfter (pagingAlignToLowerPage v) x = v / 4096 + x := by
    intro x hx
    unfold pageAfter pageCount
    rw [hdiv]
    omega
  have hle : (v + size + 4095) / 4096 - v / 4096 ≤ pageCount := by
    unfold pageCount
    omega
  have hcases : (_ ∧ mapPages e _ _ _ flags n = e n) ∨ _ :=
    mapPages_cases ((pagingAlignToLowerPage_le v).trans_lt hlt)
      (show pagingAlignToLowerPage P < 4294967296 by omega) hle
  rcases hcases with ⟨hno, he⟩ | ⟨x, hx, rfl, he⟩
  · refine .inr ⟨fun hin => ?_, by rw [mapTo, hcount, he]⟩
    refine hno (n - v / 4096) (by omega) ?_
    rw [hafter _ (by omega)]
    omega
  · rw [hafter x hx] at he ⊢
    refine .inl ⟨by omega, ?_⟩
    rw [mapTo, hcount, he, Nat.add_sub_cancel_left, Nat.mul_comm, Nat.mod_eq_of_lt]
    omega

/-- Afterwards a page has the entry of a segment that it is in, or the one it had. -/
theorem mapSegments_cases (h : file.Aligned m) (n : ℕ) : ∀ (fuel i : ℕ) (e : ℕ → ℕ),
    i + fuel ≤ file.segments m →
    (∃ j, i ≤ j ∧ j < i + fuel ∧ file.InSegment m j n ∧
      mapSegments (elfSegment file m) fuel i e n = file.segmentEntry m j n) ∨
    (∀ j, i ≤ j → j < i + fuel → ¬file.InSegment m j n) ∧
      mapSegments (elfSegment file m) fuel i e n = e n
  | 0, i, e, _ => .inr ⟨fun j hj hj' => by omega, rfl⟩
  | fuel + 1, i, e, hi => by
    rw [mapSegments]
    rcases mapSegments_cases h n fuel (i + 1) _ (by omega) with ⟨j, hj, hj', hin, he⟩ | ⟨hall, he⟩
    · exact .inl ⟨j, by omega, by omega, hin, he⟩
    · rw [he]
      rcases mapTo_elfSegment (h.segmentFits (i := i) (by omega)) e n with ⟨hin, he'⟩ | ⟨hno, he'⟩
      · exact .inl ⟨i, le_rfl, by omega, hin, he'⟩
      · refine .inr ⟨fun j h1 h2 => ?_, he'⟩
        rcases Nat.eq_or_lt_of_le h1 with rfl | hlt
        · exact hno
        · exact hall j hlt (by omega)

/-- The page of the entry is present, open to the user, and writable as `writable` says. -/
structure UserPage (entry : ℕ) (writable : Prop) : Prop where
  present : entry &&& pagingIsPresent ≠ 0
  user : entry &&& pagingAccessFromAll ≠ 0
  write : entry &&& pagingIsWriteable ≠ 0 ↔ writable

/-- The low bits of an entry are its flags. -/
theorem or_and_flags {a flags c : ℕ} (ha : a % 4096 = 0) (hc : c < 4096) :
    (a ||| flags) &&& c = flags &&& c := by
  have hlow : a &&& c = 0 := by
    have hmod := Nat.and_mod_two_pow (a := a) (b := c) (n := 12)
    have hle : a &&& c ≤ c := Nat.and_le_right
    rw [show 2 ^ 12 = 4096 by decide, ha, Nat.zero_and, Nat.mod_eq_of_lt (by omega)] at hmod
    exact hmod
  rw [Nat.and_or_distrib_right, hlow, Nat.zero_or]

theorem ElfFile.segmentEntry_userPage :
    UserPage (file.segmentEntry m i n) (file.pflags m i &&& pfW ≠ 0) := by
  have hbase : (pagingAlignToLowerPage (file.elfMemory + file.offset m i) +
      (n - file.vaddr m i / 4096) * 4096) % 4096 = 0 := by
    have := pagingAlignToLowerPage_mod (file.elfMemory + file.offset m i)
    omega
  unfold ElfFile.segmentEntry ElfFile.pageFlags
  refine ⟨?_, ?_, ?_⟩
  · rw [or_and_flags hbase (by decide)]
    split_ifs <;> decide
  · rw [or_and_flags hbase (by decide)]
    split_ifs <;> decide
  · rw [or_and_flags hbase (by decide)]
    split_ifs with hw
    · exact iff_of_true (by decide) hw
    · exact iff_of_false (by decide) hw

theorem ElfFile.pageFlags_lt : file.pageFlags m i < 4096 := by
  unfold ElfFile.pageFlags
  split_ifs <;> decide

/-- The addresses of a segment lead to its bytes in the file. -/
theorem ElfFile.SegmentFits.translate_segment (h : file.SegmentFits m i) {x : ℕ}
    (he : e ((file.vaddr m i + x) / 4096) =
      file.segmentEntry m i ((file.vaddr m i + x) / 4096)) (hx : x < file.memsz m i) :
    translate e (file.vaddr m i + x) = file.elfMemory + file.offset m i + x := by
  have hmod := h.elfMemory
  have hcongr := h.congruent
  have hphys := h.phys
  have hlow : pagingAlignToLowerPage (file.elfMemory + file.offset m i) =
      (file.elfMemory + file.offset m i) / 4096 * 4096 := by
    unfold pagingAlignToLowerPage
    omega
  unfold ElfFile.segmentEntry at he
  rw [hlow] at he
  rw [translate_of_entry he (by omega) (by omega) ElfFile.pageFlags_lt]
  omega

theorem ElfFile.inSegment_of_lt {x : ℕ} (hx : x < file.memsz m i) :
    file.InSegment m i ((file.vaddr m i + x) / 4096) := by
  unfold ElfFile.InSegment
  omega

/-- The headers are accepted. -/
theorem ElfFile.Aligned.segmentValid (h : file.Aligned m) (hi : i < file.segments m) :
    SegmentValid file m i := by
  have hphys := h.phys i hi
  have hround : ∀ a, a ≤ 4294963200 → pagingAlignAddress a % 4096 = 0 ∧
    a ≤ pagingAlignAddress a := by
    intro a ha
    unfold pagingAlignAddress
    split_ifs <;> omega
  obtain ⟨hmod, hle⟩ := hround (file.elfMemory + file.offset m i + file.memsz m i) hphys
  have hlow := pagingAlignToLowerPage_le (file.elfMemory + file.offset m i)
  rw [SegmentValid, elfSegment_eq]
  simp only
  rw [Nat.mod_eq_of_lt (show file.elfMemory + file.offset m i < 4294967296 by omega),
    Nat.mod_eq_of_lt (show file.elfMemory + file.offset m i + file.memsz m i < 4294967296 by omega)]
  exact ⟨pagingAlignToLowerPage_mod _, pagingAlignToLowerPage_mod _, hmod, by omega⟩

/-- `process_map_elf` succeeds, and then the addresses of every segment lead to its place in the
file, with the access that its header asks for, and the pages of no segment have the entries
that they had. -/
theorem processMapElf_segments (h : ProcessAt k process p t d f e) (hd : p.data = .elfFile file)
    (hl : file.Aligned k.mem) :
    ∃ k' e', processMapElf process k = some (0, k') ∧ ProcessAt k' process p t d f e' ∧
      (∀ i < file.segments k.mem, ∀ x < file.memsz k.mem i,
        pagingGetPhysicalAddress d (file.vaddr k.mem i + x) k' =
          some (file.elfMemory + file.offset k.mem i + x, k') ∧
        UserPage (e' ((file.vaddr k.mem i + x) / 4096)) (file.pflags k.mem i &&& pfW ≠ 0)) ∧
      ∀ n, (∀ i < file.segments k.mem, ¬file.InSegment k.mem i n) → e' n = e n := by
  have htotal : Meets True (processMapElf process) k _ := processMapElf_meets h hd
  obtain ⟨_, k', hrun, -, ⟨rfl, -, h'⟩ | ⟨-, hno, -⟩⟩ := htotal.exists_result
  · rw [Process.imageEntries, hd] at h'
    refine ⟨k', _, hrun, h', fun i hi x hx => ?_, fun n hno => ?_⟩
    · have hin := ElfFile.inSegment_of_lt hx
      have hentry : mapSegments (elfSegment file k.mem) (file.segments k.mem) 0 e
          ((file.vaddr k.mem i + x) / 4096) =
          file.segmentEntry k.mem i ((file.vaddr k.mem i + x) / 4096) := by
        rcases mapSegments_cases hl ((file.vaddr k.mem i + x) / 4096) (file.segments k.mem) 0 e
          (by omega) with ⟨j, -, hj, hinj, he⟩ | ⟨hall, -⟩
        · rw [he, hl.apart j (by omega) i hi _ hinj hin]
        · exact absurd hin (hall i (Nat.zero_le i) (by omega))
      have hvirt := hl.virt i hi
      refine ⟨?_, ?_⟩
      · rw [h'.maps.pagingGetPhysicalAddress_run (by omega), (hl.segmentFits hi).translate_segment
          hentry hx]
      · simp only
        rw [hentry]
        exact ElfFile.segmentEntry_userPage
    · rcases mapSegments_cases hl n (file.segments k.mem) 0 e (by omega) with
        ⟨j, -, hj, hin, -⟩ | ⟨-, he⟩
      · exact absurd hin (hno j (by omega))
      · exact he
  · refine absurd (fun file' hfile i hi => ?_) hno
    rw [hd] at hfile
    cases hfile
    exact hl.segmentValid hi

/-! ## An example -/

/-- A program header with the given fields. -/
def phdrBytes (offset vaddr memsz flags : ℕ) : List UInt8 :=
  wordBytes ptLoad ++ wordBytes offset ++ wordBytes vaddr ++ wordBytes 0 ++ wordBytes memsz ++
    wordBytes memsz ++ wordBytes flags ++ wordBytes 4096

/-- The start of a file with a segment to read, over a page boundary, and one to write. -/
def twoSegments : List UInt8 :=
  List.replicate 28 0 ++ wordBytes 52 ++ List.replicate 12 0 ++ [2, 0] ++ List.replicate 6 0 ++
    phdrBytes 0x10 0x400010 0x1800 5 ++ phdrBytes 0x2020 0x403020 0x20 6

/-- The file in memory at 0x200000. -/
def twoSegmentsMem (a : ℕ) : UInt8 := twoSegments.getD (a - 0x200000) 0

/-- Its `struct elf_file`. -/
def twoSegmentsFile : ElfFile := ⟨0x300000, 0x200000, 0, 0, 0, 0⟩

theorem twoSegments_headers : twoSegmentsFile.segments twoSegmentsMem = 2 ∧
    (twoSegmentsFile.vaddr twoSegmentsMem 0 = 0x400010 ∧
      twoSegmentsFile.offset twoSegmentsMem 0 = 0x10 ∧
      twoSegmentsFile.memsz twoSegmentsMem 0 = 0x1800) ∧
    twoSegmentsFile.vaddr twoSegmentsMem 1 = 0x403020 ∧
      twoSegmentsFile.offset twoSegmentsMem 1 = 0x2020 ∧
      twoSegmentsFile.memsz twoSegmentsMem 1 = 0x20 := by
  decide +kernel

theorem twoSegments_aligned : twoSegmentsFile.Aligned twoSegmentsMem := by
  obtain ⟨hn, ⟨hv0, ho0, hs0⟩, hv1, ho1, hs1⟩ := twoSegments_headers
  have hcases : ∀ i < twoSegmentsFile.segments twoSegmentsMem, i = 0 ∨ i = 1 := fun i hi => by
    rw [hn] at hi
    omega
  have hmem : twoSegmentsFile.elfMemory = 0x200000 := rfl
  refine ⟨rfl, fun i hi => ?_, fun i hi => ?_, fun i hi => ?_, fun i hi => ?_,
    fun i hi j hj n hin hjn => ?_⟩
  · rcases hcases i hi with rfl | rfl
    · rw [hv0, ho0]
    · rw [hv1, ho1]
  · rcases hcases i hi with rfl | rfl
    · rw [ho0]
      decide
    · rw [ho1]
      decide
  · rcases hcases i hi with rfl | rfl
    · rw [hv0, hs0]
      decide
    · rw [hv1, hs1]
      decide
  · rcases hcases i hi with rfl | rfl
    · rw [hmem, ho0, hs0]
      decide
    · rw [hmem, ho1, hs1]
      decide
  · unfold ElfFile.InSegment at hin hjn
    rcases hcases i hi with rfl | rfl <;> rcases hcases j hj with rfl | rfl
    · rfl
    · rw [hv0, hs0] at hin
      rw [hv1, hs1] at hjn
      omega
    · rw [hv1, hs1] at hin
      rw [hv0, hs0] at hjn
      omega
    · rfl

/-- The two segments are mapped. -/
theorem processMapElf_segments_two : ∃ k k' e',
    processMapElf 0x900000 k = some (0, k') ∧
      Maps k' 4096 8192 (fun i => 12288 + i * 4096) e' ∧
      pagingGetPhysicalAddress 8192 0x403025 k' = some (0x202025, k') ∧ e' 0x402 = 0 := by
  set k : Kernel := { Kernel.oneSpaceProcess { Process.zero with data := .elfFile twoSegmentsFile }
    with mem := twoSegmentsMem } with hk
  have hat : ProcessAt k 0x900000 _ _ _ _ _ := (Kernel.oneSpaceProcess_at
    { Process.zero with data := .elfFile twoSegmentsFile }).congr fun _ _ => rfl
  obtain ⟨hn, ⟨hv0, -, hs0⟩, hv1, ho1, hs1⟩ := twoSegments_headers
  have hmem : k.mem = twoSegmentsMem := by rw [hk]
  have hl : twoSegmentsFile.Aligned k.mem := by
    rw [hmem]
    exact twoSegments_aligned
  obtain ⟨k', e', hrun, hat', hin, hout⟩ := processMapElf_segments hat rfl hl
  rw [hmem] at hin hout
  have hsecond := (hin 1 (by rw [hn]; decide) 5 (by rw [hs1]; decide)).1
  rw [hv1, ho1] at hsecond
  refine ⟨k, k', e', hrun, hat'.maps, hsecond, hout 0x402 fun i hi => ?_⟩
  rw [hn] at hi
  have hi' : i = 0 ∨ i = 1 := by omega
  rcases hi' with rfl | rfl
  · unfold ElfFile.InSegment
    rw [hv0, hs0]
    decide
  · unfold ElfFile.InSegment
    rw [hv1, hs1]
    decide

end Hyperion
