import Hyperion.CopyString
import Hyperion.ElfMap
import Hyperion.ProcessLoad

/-!
# The memory image of an ELF process

The file is not copied : the segments are mapped to where the loader has read them, so a process
sees the bytes of the file from `p_offset` on, as far as `p_memsz` reaches. Behind `p_filesz` these
are zero only if the file has zeros there (`processLoad_image_iff`).

`Layout` is what makes a file one that can be loaded at all : its headers and the bytes of its
segments are in it, and the segments are on different pages. `SelfContained` is what keeps other
bytes out : the file reaches to the end of the segments in memory, and nothing else is mapped to
their pages, neither by a header of another type nor by the stack. Every header is mapped, whatever
its type, and a later one goes over an earlier one (`mapSegments_only`).

A byte that the process sees is followed through its page tables to the buffer that the file was
read to (`InBuffer`, `InBuffer.entries_eq`). `elfLoad_image` gives the buffer, `processLoad_image`
carries it through the rest of the load, and `ImageRight` is what the process should see.
-/

namespace Hyperion

open Partial

/-! ## The headers of a file -/

namespace ElfBytes

variable (d : ℕ → UInt8) (n i : ℕ)

def ptype : ℕ := word32 d (phdr d i)

def poffset : ℕ := word32 d (phdr d i + 4)

def pvaddr : ℕ := word32 d (phdr d i + 8)

def pfilesz : ℕ := word32 d (phdr d i + 16)

def pmemsz : ℕ := word32 d (phdr d i + 20)

/-- Header `i` is one of the program headers, and that of a segment. -/
def IsLoad : Prop := i < phnum d ∧ ptype d i = ptLoad

/-- The page `page` is one of those that header `i` maps. -/
def MapsPage (page : ℕ) : Prop :=
  ∃ x < (poffset d i % 4096 + pmemsz d i + 4095) / 4096, page = (pvaddr d i / 4096 + x) % pageCount

/-- The program headers lie in the file of `n` bytes, and so do the bytes of the segments, which
occupy different pages, in step with the pages of the file. -/
structure Layout : Prop where
  headers : phoff d + phdrSize * phnum d ≤ n
  congruent : ∀ i, IsLoad d i → pvaddr d i % 4096 = poffset d i % 4096
  filesz_le : ∀ i, IsLoad d i → pfilesz d i ≤ pmemsz d i
  inFile : ∀ i, IsLoad d i → poffset d i + pfilesz d i ≤ n
  inSpace : ∀ i, IsLoad d i → pvaddr d i + pmemsz d i ≤ 4294967296
  apart : ∀ i j page, IsLoad d i → IsLoad d j → MapsPage d i page → MapsPage d j page → i = j

/-- The file reaches to the end of the segments in memory, and nothing else is mapped to their
pages : no other header, and not the stack. -/
structure SelfContained : Prop where
  tail : ∀ i, IsLoad d i → poffset d i + pmemsz d i ≤ n
  others : ∀ i j page, IsLoad d i → j < phnum d → ptype d j ≠ ptLoad → MapsPage d i page →
    ¬MapsPage d j page
  stack : ∀ i page, IsLoad d i → MapsPage d i page →
    page < programVirtualStackAddressEnd / 4096 ∨ programVirtualStackAddressStart / 4096 ≤ page

end ElfBytes

open ElfBytes

variable {m d : ℕ → UInt8} {file : ElfFile} {n i N : ℕ}

theorem word32_agree {a : ℕ} (h : ∀ j < N, m j = d j) (ha : a + 4 ≤ N) :
    word32 m a = word32 d a := by
  simp only [word32]
  rw [h a (by omega), h (a + 1) (by omega), h (a + 2) (by omega), h (a + 3) (by omega)]

theorem word16_agree {a : ℕ} (h : ∀ j < N, m j = d j) (ha : a + 2 ≤ N) :
    word16 m a = word16 d a := by
  simp only [word16]
  rw [h a (by omega), h (a + 1) (by omega)]

/-- The file `d` of `n` bytes is in memory where `file` says, in `N` bytes. -/
structure InBuffer (m : ℕ → UInt8) (file : ElfFile) (d : ℕ → UInt8) (n N : ℕ) : Prop where
  le : n ≤ N
  page : 4096 ≤ N
  fits : file.elfMemory + n ≤ 4294967296
  byte : ∀ j < N, bytesFrom m file.elfMemory j = d j

namespace InBuffer

variable (h : InBuffer m file d n N)

include h

theorem phoff_eq : phoff (bytesFrom m file.elfMemory) = phoff d :=
  word32_agree h.byte (by have := h.page; omega)

theorem phnum_eq : file.segments m = phnum d := by
  rw [phnum, ← word16_agree h.byte (by have := h.page; omega), word16_bytesFrom]
  exact value_word16 _

/-- A program header lies in the buffer. -/
theorem phdr_le (hl : phoff d + phdrSize * phnum d ≤ n) (hi : i < phnum d) :
    phdr d i + phdrSize ≤ n := by
  have := h.le
  unfold phdr
  unfold phdrSize at *
  omega

theorem elfPhdr_eq (hoff : phoff d ≠ 0) (hl : phoff d + phdrSize * phnum d ≤ n)
    (hi : i < phnum d) : file.phdr m i = file.elfMemory + phdr d i := by
  have hfit := h.fits
  have hle := h.phdr_le hl hi
  unfold phdrSize at hle
  have hsum : phoff d + phdrSize * i = phdr d i := rfl
  rw [ElfFile.phdr, elfPheader_value (by rwa [h.phoff_eq]), h.phoff_eq, Nat.mod_add_mod,
    Nat.add_assoc, hsum, Nat.mod_eq_of_lt (by omega)]

/-- A field of a program header. -/
theorem field_eq (hoff : phoff d ≠ 0) (hl : phoff d + phdrSize * phnum d ≤ n) (hi : i < phnum d)
    {a : ℕ} (ha : a + 4 ≤ phdrSize) : word32 m (file.phdr m i + a) = word32 d (phdr d i + a) := by
  have hle := h.phdr_le hl hi
  have hn := h.le
  rw [h.elfPhdr_eq hoff hl hi, Nat.add_assoc, ← word32_bytesFrom]
  exact word32_agree h.byte (by omega)

theorem vaddr_eq (hoff : phoff d ≠ 0) (hl : phoff d + phdrSize * phnum d ≤ n) (hi : i < phnum d) :
    file.vaddr m i = pvaddr d i := h.field_eq hoff hl hi (by decide)

theorem offset_eq (hoff : phoff d ≠ 0) (hl : phoff d + phdrSize * phnum d ≤ n) (hi : i < phnum d) :
    file.offset m i = poffset d i := h.field_eq hoff hl hi (by decide)

theorem memsz_eq (hoff : phoff d ≠ 0) (hl : phoff d + phdrSize * phnum d ≤ n) (hi : i < phnum d) :
    file.memsz m i = pmemsz d i := h.field_eq hoff hl hi (by decide)

end InBuffer

/-- The headers decide whether the segments can be mapped. -/
theorem InBuffer.mappable {p : Process} (h : InBuffer m file d n N) (hoff : phoff d ≠ 0)
    (hl : phoff d + phdrSize * phnum d ≤ n) (hd : p.data = .elfFile file)
    (hall : ∀ i < phnum d, MapToValid (pagingAlignToLowerPage (pvaddr d i))
      (pagingAlignToLowerPage ((file.elfMemory + poffset d i) % 4294967296))
      (pagingAlignAddress (((file.elfMemory + poffset d i) % 4294967296 + pmemsz d i) %
        4294967296))) : p.Mappable m := by
  intro file' hf i hi
  rw [hd] at hf
  cases hf
  rw [h.phnum_eq] at hi
  rw [SegmentValid, elfSegment_eq, h.vaddr_eq hoff hl hi, h.offset_eq hoff hl hi,
    h.memsz_eq hoff hl hi]
  exact hall i hi

/-! ## The pages -/

/-- A header leaves the pages that it does not map. -/
theorem mapTo_elfSegment_other {page : ℕ} (hmod : file.elfMemory % 4096 = 0) (e : ℕ → ℕ)
    (hno : ∀ x < (file.offset m i % 4096 + file.memsz m i + 4095) / 4096,
      page ≠ (file.vaddr m i / 4096 + x) % pageCount) :
    mapTo e (elfSegment file m i).1 (elfSegment file m i).2.1 (elfSegment file m i).2.2.1
      (elfSegment file m i).2.2.2 page = e page := by
  have hlt : file.vaddr m i < 4294967296 := ElfFile.vaddr_lt
  rw [elfSegment_eq]
  simp only
  generalize file.vaddr m i = v at *
  generalize file.offset m i = o at *
  generalize file.memsz m i = size at *
  have hP : (file.elfMemory + o) % 4294967296 % 4096 = o % 4096 := by omega
  generalize (file.elfMemory + o) % 4294967296 = P at *
  have hend : pagingAlignAddress ((P + size) % 4294967296) ≤ (P + size + 4095) / 4096 * 4096 := by
    unfold pagingAlignAddress
    split_ifs <;> omega
  have hlow : pagingAlignToLowerPage P = P / 4096 * 4096 := by
    unfold pagingAlignToLowerPage
    omega
  have hcount : (pagingAlignAddress ((P + size) % 4294967296) - pagingAlignToLowerPage P) / 4096 ≤
      (o % 4096 + size + 4095) / 4096 := by
    rw [hlow]
    omega
  refine mapPages_of_not_reached ((pagingAlignToLowerPage_le v).trans_lt hlt) fun x hx => ?_
  rw [pageAfter, pagingAlignToLowerPage_div]
  exact hno x (by omega)

/-- A page that no segment is mapped to keeps its entry. -/
theorem mapSegments_none {seg : ℕ → ℕ × ℕ × ℕ × ℕ} {page : ℕ} : ∀ (fuel start : ℕ) (e : ℕ → ℕ),
    (∀ j, start ≤ j → j < start + fuel → ∀ e,
      mapTo e (seg j).1 (seg j).2.1 (seg j).2.2.1 (seg j).2.2.2 page = e page) →
    mapSegments seg fuel start e page = e page
  | 0, _, _, _ => rfl
  | fuel + 1, start, e, hother => by
    rw [mapSegments, mapSegments_none fuel (start + 1) _ fun j hj hj' =>
      hother j (by omega) (by omega), hother start le_rfl (by omega)]

/-- A page that one segment only is mapped to has the entry of that segment. -/
theorem mapSegments_only {seg : ℕ → ℕ × ℕ × ℕ × ℕ} {page : ℕ} : ∀ (fuel start : ℕ) (e : ℕ → ℕ),
    (∀ j, start ≤ j → j < start + fuel → j ≠ i → ∀ e,
      mapTo e (seg j).1 (seg j).2.1 (seg j).2.2.1 (seg j).2.2.2 page = e page) →
    start ≤ i → i < start + fuel → ∃ e', mapSegments seg fuel start e page =
      mapTo e' (seg i).1 (seg i).2.1 (seg i).2.2.1 (seg i).2.2.2 page
  | 0, start, e, _, hi, hi' => by omega
  | fuel + 1, start, e, hother, hi, hi' => by
    rw [mapSegments]
    rcases Nat.eq_or_lt_of_le hi with rfl | hlt
    · exact ⟨e, mapSegments_none fuel (start + 1) _ fun j hj hj' =>
        hother j (by omega) (by omega) (by omega)⟩
    · exact mapSegments_only fuel (start + 1) _ (fun j hj hj' => hother j (by omega) (by omega)) hlt
        (by omega)

/-- The stack is mapped to its own pages. -/
theorem tryMapTo_stack_other {e : ℕ → ℕ} {stack flags page : ℕ}
    (hpage : page < programVirtualStackAddressEnd / 4096 ∨
      programVirtualStackAddressStart / 4096 ≤ page) :
    tryMapTo e programVirtualStackAddressEnd stack
      (pagingAlignAddress ((stack + userProgramStackSize) % 4294967296)) flags page = e page := by
  unfold tryMapTo
  split_ifs with hvalid
  · have hend : pagingAlignAddress ((stack + userProgramStackSize) % 4294967296) ≤
        stack + userProgramStackSize := by
      unfold pagingAlignAddress userProgramStackSize
      split_ifs <;> omega
    refine mapPages_of_not_reached (by decide) fun x hx => ?_
    unfold userProgramStackSize at hend hx
    unfold pageAfter pageCount programVirtualStackAddressEnd
    unfold programVirtualStackAddressEnd programVirtualStackAddressStart at hpage
    omega
  · rfl

/-- The page of a byte of a segment is one of its pages. -/
theorem ElfBytes.Layout.mapsPage {x : ℕ} (hl : Layout d n) (hi : IsLoad d i)
    (hx : x < pmemsz d i) : MapsPage d i ((pvaddr d i + x) / 4096) := by
  have hcongr := hl.congruent i hi
  have hspace := hl.inSpace i hi
  refine ⟨(pvaddr d i + x) / 4096 - pvaddr d i / 4096, by omega, ?_⟩
  unfold pageCount
  omega

/-- No other header is mapped to the page of a byte of a segment. -/
theorem ElfBytes.SelfContained.not_mapsPage {x j : ℕ} (hs : SelfContained d n) (hl : Layout d n)
    (hi : IsLoad d i) (hx : x < pmemsz d i) (hj : j < phnum d) (hji : j ≠ i) :
    ¬MapsPage d j ((pvaddr d i + x) / 4096) := by
  have hpage := hl.mapsPage hi hx
  by_cases hload : ptype d j = ptLoad
  · exact fun hmaps => hji (hl.apart j i _ ⟨hj, hload⟩ hi hmaps hpage)
  · exact hs.others i j _ hi hj hload hpage

section Image

variable {x : ℕ} (h : InBuffer m file d n N) (hoff : phoff d ≠ 0) (hl : Layout d n)
  (hs : SelfContained d n) (hi : IsLoad d i) (hmod : file.elfMemory % 4096 = 0)

include h hoff hl hs hi hmod

/-- A segment that was mapped does not reach the last page of the address space. -/
theorem InBuffer.segmentFits (hne : file.elfMemory ≠ 0) (hvalid : SegmentValid file m i)
    (hpos : 0 < pmemsz d i) : file.SegmentFits m i := by
  have hv := h.vaddr_eq hoff hl.headers hi.1
  have ho := h.offset_eq hoff hl.headers hi.1
  have hz := h.memsz_eq hoff hl.headers hi.1
  have htail := hs.tail i hi
  have hfit := h.fits
  refine ⟨hmod, by rw [hv, ho, hl.congruent i hi], by rw [hv, hz]; exact hl.inSpace i hi, ?_⟩
  have hle := hvalid.le
  rw [elfSegment_eq, ho, hz] at hle
  simp only at hle
  rw [ho, hz]
  generalize poffset d i = o at *
  generalize pmemsz d i = size at *
  rw [Nat.mod_eq_of_lt (show file.elfMemory + o < 4294967296 by omega)] at hle
  generalize file.elfMemory = B at *
  have hlow : 4096 ≤ pagingAlignToLowerPage (B + o) := by
    unfold pagingAlignToLowerPage
    omega
  by_contra hbig
  have hend : pagingAlignAddress ((B + o + size) % 4294967296) = 0 := by
    unfold pagingAlignAddress
    split_ifs <;> omega
  omega

/-- The entry of the page of a byte of the segment is that of the segment. -/
theorem InBuffer.entries_eq {p : Process} (hfits : file.SegmentFits m i)
    (hd : p.data = .elfFile file) (e : ℕ → ℕ) (hx : x < pmemsz d i) :
    p.entries m e ((pvaddr d i + x) / 4096) =
      file.segmentEntry m i ((pvaddr d i + x) / 4096) := by
  have hpage := hl.mapsPage hi hx
  have hv := h.vaddr_eq hoff hl.headers hi.1
  have hz := h.memsz_eq hoff hl.headers hi.1
  have hother : ∀ j, 0 ≤ j → j < 0 + file.segments m → j ≠ i → ∀ e,
      mapTo e (elfSegment file m j).1 (elfSegment file m j).2.1 (elfSegment file m j).2.2.1
        (elfSegment file m j).2.2.2 ((pvaddr d i + x) / 4096) = e ((pvaddr d i + x) / 4096) := by
    intro j _ hj hji e'
    have hj' : j < phnum d := by rwa [h.phnum_eq, Nat.zero_add] at hj
    refine mapTo_elfSegment_other hmod e' fun y hy hpe => ?_
    rw [h.vaddr_eq hoff hl.headers hj'] at hpe
    rw [h.offset_eq hoff hl.headers hj', h.memsz_eq hoff hl.headers hj'] at hy
    exact hs.not_mapsPage hl hi hx hj' hji ⟨y, hy, hpe⟩
  obtain ⟨e', he'⟩ := mapSegments_only (file.segments m) 0 e hother (Nat.zero_le i)
    (by rw [h.phnum_eq, Nat.zero_add]; exact hi.1)
  rw [Process.entries, tryMapTo_stack_other (hs.stack i _ hi hpage), Process.imageEntries, hd]
  show mapSegments (elfSegment file m) (file.segments m) 0 e _ = _
  rw [he']
  rcases mapTo_elfSegment hfits e' ((pvaddr d i + x) / 4096) with ⟨-, he⟩ | ⟨hno, -⟩
  · exact he
  · refine absurd ?_ hno
    rw [← hv]
    exact ElfFile.inSegment_of_lt (hz ▸ hx)

end Image

/-! ## The load -/

/-- The byte that the process at `process` sees at `virt`. -/
def processByte (process virt : ℕ) : KernelM UInt8 := do
  let p ← getProcess process
  let t ← getTask p.task
  let directory ← getChunk t.pageDirectory
  readVirtual directory virt

/-- The process sees the bytes of its segments in the file, and zeros behind them. -/
def ImageRight (d : ℕ → UInt8) (process : ℕ) (k : Kernel) : Prop :=
  ∀ i, IsLoad d i → ∀ x < pmemsz d i, processByte process (pvaddr d i + x) k =
    some (if x < pfilesz d i then d (poffset d i + x) else 0, k)

/-- The file has zeros behind the bytes of every segment, as far as it reaches in memory. -/
def ZeroTails (d : ℕ → UInt8) : Prop :=
  ∀ i, IsLoad d i → ∀ x, pfilesz d i ≤ x → x < pmemsz d i → d (poffset d i + x) = 0

/-- What `process_load` reads of the file : its size and its bytes. -/
def processContent (filename : List UInt8) : KernelM (Option (ℕ × (ℕ → UInt8))) := do
  let process ← kzalloc 9364
  putObj process (.process Process.zero)
  elfContent filename

section Load

variable {k k' k₁ kc : Kernel} {filename : List UInt8} {process slot : ℕ} {r : ElfLoaded}

/-- An ELF file that is accepted has been read to a buffer of its own. -/
theorem elfLoad_image (hg : Guarded k.table)
    (hcontent : elfContent filename k = some (some (n, d), kc)) (hck : Checked d)
    (h : elfLoad filename k = some (r, k')) : r.res = 0 ∧ ∀ file, r.file = some file →
      ElfLoaded.Blocks k k' file n ∧ file.elfMemory + n ≤ 4294967296 ∧
        d = bytesFrom k'.mem file.elfMemory := by
  obtain ⟨content, k₁, hrun, hcase⟩ := elfLoad_content h
  obtain ⟨rfl, -⟩ := Prod.mk.inj (Option.some.inj (hcontent.symm.trans hrun))
  rcases hcase with ⟨hnone, -⟩ | ⟨file₀, n', hsome, hfit, hlook, hres⟩
  · cases hnone
  · obtain ⟨rfl, rfl⟩ := Prod.mk.inj (Option.some.inj hsome)
    have hpos : 0 ≤ r.res := by
      rw [hres]
      exact elfProcessLoaded_value.mpr hck
    obtain ⟨-, hle, hblocks⟩ := (elfLoad_grows hg).of_eq h
    refine ⟨le_antisymm hle hpos, fun file hfile => ?_⟩
    obtain ⟨look, hlook', hbuffer, hb⟩ := hblocks hpos file hfile
    obtain rfl := Option.some.inj (hlook.symm.trans hlook')
    simp only at hbuffer hb
    rw [← hbuffer]
    exact ⟨hb, hfit, rfl⟩

/-- `process_load_data` of such a file. -/
theorem processLoadData_image (hg : Guarded k.table) (hf : ¬k.Fresh process) (hp0 : process ≠ 0)
    (hp : k.store process = some (.process Process.zero))
    (hcontent : elfContent filename k = some (some (n, d), kc)) (hck : Checked d) :
    Meets False (processLoadData filename process) k fun _ k' => ∃ file,
      DataLoaded k k' process Process.zero
        { Process.zero with filetype := .elf, data := .elfFile file } ∧
      ElfLoaded.Blocks k k' file n ∧ file.elfMemory + n ≤ 4294967296 ∧
      d = bytesFrom k'.mem file.elfMemory := by
  have helf : Meets False (processLoadElf filename process) k fun res k' => res = 0 ∧ ∃ file,
      DataLoaded k k' process Process.zero
        { Process.zero with filetype := .elf, data := .elfFile file } ∧
      ElfLoaded.Blocks k k' file n ∧ file.elfMemory + n ≤ 4294967296 ∧
      d = bytesFrom k'.mem file.elfMemory := by
    refine .bind Meets.self fun r k₁ hload => ?_
    obtain ⟨hres, hfile⟩ := elfLoad_image hg hcontent hck hload
    refine Meets.ite_iff.mpr ⟨fun hneg => absurd hres hneg.ne, fun _ => ?_⟩
    refine Meets.bind_iff.mpr (defined_iff.mpr ⟨fun file he => ?_, fun _ => not_false⟩)
    obtain ⟨hb, hfit, hd⟩ := hfile file he
    have h₁ := ((elfLoad_grows hg).of_eq hload).1
    have hp₁ : k₁.store process = some (.process Process.zero) :=
      ((h₁.heap hg).store _ hp0 hf).trans hp
    rw [Meets.bind_iff, Kernel.modifyProcess_meets hp0 hp₁, Meets.pure_iff]
    exact ⟨hres, file, hb.loaded h₁ hg hf _, ⟨hb.self.put hf _, hb.memory.put hf _, hb.ne⟩,
      hfit, hd⟩
  refine .bind helf ?_
  rintro _ k₁ ⟨rfl, h⟩
  rw [if_neg (by decide), Meets.pure_iff]
  exact h

/-- The process whose image was loaded, in the state after the load. -/
structure ImageLoaded (k' : Kernel) (process : ℕ) (p : Process) (t : Task) (dir : ℕ) (f e : ℕ → ℕ)
    (file : ElfFile) (d : ℕ → UInt8) (n N : ℕ) : Prop where
  at_process : ProcessAt k' process p t dir f e
  entries : e = p.entries k'.mem identityEntries
  data : p.data = .elfFile file
  mappable : p.Mappable k'.mem
  buffer : InBuffer k'.mem file d n N
  elfMemory_mod : file.elfMemory % 4096 = 0
  elfMemory_ne : file.elfMemory ≠ 0

/-- `process_load_for_slot` of such a file. -/
theorem processLoadForSlot_image (hg : Guarded k.table)
    (hcontent : processContent filename k = some (some (n, d), kc)) (hck : Checked d) :
    Meets False (processLoadForSlot filename slot) k fun x k' => x.1 = 0 →
      ∃ p t dir f e file N, ImageLoaded k' x.2 p t dir f e file d n N := by
  refine .bind Meets.self fun taken k₀ hget => ?_
  have hk₀ : k₀ = k := by
    simp only [processGet, run_bind, run_get, Option.bind_some] at hget
    split_ifs at hget <;> cases hget <;> rfl
  subst hk₀
  refine Meets.ite_iff.mpr ⟨fun _ => Meets.pure_iff.mpr fun he => absurd he (by decide),
    fun _ => ?_⟩
  obtain ⟨process, k₁, hself, hcontent⟩ := bind_eq_some.mp hcontent
  have hanswer := (Kernel.kzalloc_answers (r := False) False.elim).of_eq hself
  refine .bind (.of_run_eq (Q := fun a k' => process = a ∧ k₁ = k') hself ⟨rfl, rfl⟩) ?_
  rintro _ _ ⟨rfl, rfl⟩
  refine Meets.ite_iff.mpr ⟨fun _ => Meets.pure_iff.mpr fun he => absurd he (by decide),
    fun hne => ?_⟩
  rcases hanswer with ⟨hz, -⟩ | ⟨b, hb, rfl, rfl⟩
  · exact absurd hz hne
  have hown := hb.owns (show 1 ≤ 9364 by decide)
  obtain ⟨_, k₂, hput, hcontent⟩ := bind_eq_some.mp hcontent
  rw [Meets.bind_iff, Kernel.putObj_meets, if_neg hne]
  have hk₂ : k₂ = (k₀.allocated b 9364).put (blockAddr b) (.process Process.zero) := by
    unfold putObj at hput
    rw [if_neg hne] at hput
    cases hput
    rfl
  subst hk₂
  have hg₁ : Guarded (k₀.allocated b 9364).table := hb.ext.keeps.guarded hg
  refine .bind (processLoadData_image hg₁ hown.not_fresh hne (Kernel.put_store_self _ _ _)
    hcontent hck) ?_
  rintro res k₃ ⟨file, hloaded, hblocks, hfit, hd⟩
  refine Meets.ite_iff.mpr ⟨fun hneg => Meets.pure_iff.mpr fun h => absurd h hneg.ne, fun _ => ?_⟩
  have hext := hloaded.ext
  rw [Kernel.put_put] at hext
  have hstore : k₃.store (blockAddr b) = _ :=
    (hext.store _ hne hown.not_fresh).trans (Kernel.put_store_self _ _ _)
  refine (processLoadTask_meets (c := 0) (hext.owns hown).not_fresh hne hstore
    hloaded.data.typed False.elim).mono ?_
  rintro ⟨res, process⟩ k' (⟨he, -⟩ | ⟨hneg, -⟩ | ⟨he, -, p, t, dir, f, e, htask⟩) hres
  · cases he
    cases hres
  · exact absurd hres hneg.ne
  · cases he
    have hmem := hblocks.memory
    obtain ⟨_, _, _, hsame⟩ := htask.same
    have hcovered {j : ℕ} (hj : j < requestBlocks n * 4096) : k₃.Covered (file.elfMemory + j) :=
      hmem.owns.covered hj
    obtain ⟨b', hb', hheld⟩ := hmem.owns
    have hpos := hheld.pos
    have hle : n ≤ requestBlocks n * 4096 := le_requestBlocks (by
      unfold blockAddr heapAddress at hb'
      omega)
    refine ⟨p, t, dir, f, e, file, requestBlocks n * 4096, htask.at_process, htask.entries, ?_,
      htask.mappable, ⟨hle, by omega, hfit, fun j hj => ?_⟩, ?_, ?_⟩
    · rw [hsame]
    · rw [hd]
      exact htask.bytes.byte _ (hcovered hj)
    · rw [hb']
      exact blockAddr_mod b'
    · rw [hb']
      exact blockAddr_pos b'

/-- `process_load` of such a file. -/
theorem processLoad_image (hg : Guarded k.table)
    (hcontent : processContent filename k = some (some (n, d), kc)) (hck : Checked d) :
    Meets False (processLoad filename) k fun x k' => x.1 = 0 →
      ∃ p t dir f e file N, ImageLoaded k' x.2 p t dir f e file d n N := by
  rw [processLoad, Meets.bind_iff, Meets.get_iff]
  exact Meets.ite_iff.mpr ⟨fun _ => Meets.pure_iff.mpr fun he => absurd he (by decide),
    fun _ => processLoadForSlot_image hg hcontent hck⟩

/-- What the process sees in its segments is what the file has there. -/
theorem ImageLoaded.processByte_run {p : Process} {t : Task} {dir x : ℕ} {f e : ℕ → ℕ}
    (h : ImageLoaded k' process p t dir f e file d n N) (hck : Checked d) (hl : Layout d n)
    (hs : SelfContained d n) (hi : IsLoad d i) (hx : x < pmemsz d i) :
    processByte process (pvaddr d i + x) k' = some (d (poffset d i + x), k') := by
  have hoff := hck.2.2.2
  have hb := h.buffer
  have hv := hb.vaddr_eq hoff hl.headers hi.1
  have ho := hb.offset_eq hoff hl.headers hi.1
  have hz := hb.memsz_eq hoff hl.headers hi.1
  have hvalid : SegmentValid file k'.mem i :=
    h.mappable file h.data i (by rw [hb.phnum_eq]; exact hi.1)
  have hfits := hb.segmentFits hoff hl hs hi h.elfMemory_mod h.elfMemory_ne hvalid (by omega)
  have hentry : e ((pvaddr d i + x) / 4096) = _ := h.entries ▸
    hb.entries_eq hoff hl hs hi h.elfMemory_mod hfits h.data identityEntries hx
  have hspace := hl.inSpace i hi
  have htail := hs.tail i hi
  have hat := h.at_process
  have hread := readVirtual_run hat.maps (show pvaddr d i + x < 4294967296 by omega) (by
    rw [hentry]
    exact ElfFile.segmentEntry_userPage.present)
  have htrans : translate e (pvaddr d i + x) = file.elfMemory + (poffset d i + x) := by
    rw [← hv] at hentry ⊢
    rw [hfits.translate_segment hentry (hz ▸ hx), ho, Nat.add_assoc]
  have hbyte : k'.mem (file.elfMemory + (poffset d i + x)) = d (poffset d i + x) :=
    hb.byte _ (by have := hb.le; omega)
  rw [htrans, hbyte] at hread
  have hrun : Meets True (processByte process (pvaddr d i + x)) k' fun b k₁ =>
      b = d (poffset d i + x) ∧ k₁ = k' := by
    rw [processByte, Meets.bind_iff, Kernel.getProcess_meets hat.ne_zero hat.self, Meets.bind_iff,
      Kernel.getTask_meets hat.task_ne hat.task, Meets.bind_iff,
      Kernel.getChunk_meets hat.maps.chunk_ne hat.maps.chunk]
    exact .of_run_eq hread ⟨rfl, rfl⟩
  obtain ⟨_, _, he, rfl, rfl⟩ := hrun.exists_result
  exact he

/-- A process that was loaded from a file that reaches to the end of its segments sees the right
bytes exactly if the file has the zeros. -/
theorem processLoad_image_iff (hg : Guarded k.table)
    (hcontent : processContent filename k = some (some (n, d), kc)) (hck : Checked d)
    (hl : Layout d n) (hs : SelfContained d n)
    (h : processLoad filename k = some ((0, process), k')) :
    ImageRight d process k' ↔ ZeroTails d := by
  obtain ⟨p, t, dir, f, e, file, N, himage⟩ := (processLoad_image hg hcontent hck).of_eq h rfl
  constructor
  · intro hright i hi x hx hx'
    have hbyte := hright i hi x hx'
    rw [himage.processByte_run hck hl hs hi hx', if_neg (by omega), Option.some_inj,
      Prod.mk.injEq] at hbyte
    exact hbyte.1
  · intro hzero i hi x hx
    rw [himage.processByte_run hck hl hs hi hx]
    split_ifs with hlt
    · rfl
    · rw [hzero i hi x (by omega) hx]

end Load

/-! ## A file with one segment -/

/-- A file of 85 bytes with one segment of `memsz` bytes in memory, of which it has 84, from its
start on. Its last byte is `tail`. -/
def oneSegment (memsz : ℕ) (tail : UInt8) : List UInt8 :=
  [0x7f, 69, 76, 70, 1, 1, 1, 0, 0, 0, 0, 0, 0, 0, 0, 0, 2, 0, 3, 0, 1, 0, 0, 0] ++
    wordBytes 0x1000000 ++ wordBytes 52 ++ [0, 0, 0, 0, 0, 0, 0, 0, 52, 0, 32, 0, 1, 0, 0, 0, 0, 0,
    0, 0] ++ wordBytes ptLoad ++ wordBytes 0 ++ wordBytes 0x1000000 ++ wordBytes 0 ++
    wordBytes 84 ++ wordBytes memsz ++ wordBytes 5 ++ wordBytes 4096 ++ [tail]

/-- The fields of its headers. -/
structure HeaderFields where
  checked : Bool
  phoff : ℕ
  phnum : ℕ
  ptype : ℕ
  poffset : ℕ
  pvaddr : ℕ
  pfilesz : ℕ
  pmemsz : ℕ
  tail : UInt8
  deriving DecidableEq

/-- The fields of the header in front of `d`, of the program header that follows it, and the
byte behind them. -/
def headerFields (d : ℕ → UInt8) : HeaderFields :=
  ⟨decide (Checked d), phoff d, phnum d, ptype d 0, poffset d 0, pvaddr d 0, pfilesz d 0,
    pmemsz d 0, d 84⟩

/-- The ELF file of the process at `a`. -/
def Kernel.elfFileAt (k : Kernel) (a : ℕ) : Option ElfFile :=
  match k.store a with
  | some (.process p) =>
    match p.filetype, p.data with
    | .elf, .elfFile file => some file
    | _, _ => none
  | _ => none

theorem Kernel.elfFileAt_eq_some {k : Kernel} {a : ℕ} (h : k.elfFileAt a = some file) :
    ∃ p, k.store a = some (.process p) ∧ p.filetype = .elf ∧ p.data = .elfFile file := by
  unfold elfFileAt at h
  cases hs : k.store a with
  | none => simp [hs] at h
  | some o =>
    cases o with
    | process p =>
      cases ht : p.filetype <;> cases hd : p.data <;> simp [hs, ht, hd] at h
      exact ⟨p, rfl, ht, by rw [hd, h]⟩
    | _ => simp [hs] at h

/-- What is looked at in the state with the data of the process. -/
structure LoadView where
  slot : ℕ
  idle : Bool
  guard : UInt8
  res : Int
  process : ℕ
  taskHead : ℕ
  currentProcess : ℕ
  selfBlock : UInt8
  bufferBlock : UInt8
  room : Bool
  file : Option ElfFile
  inMemory : HeaderFields
  content : Option (ℕ × HeaderFields)
  deriving DecidableEq

def loadView (k : Kernel) : Option LoadView :=
  (processLoadStart smallPath k).bind fun y => (processContent smallPath k).map fun z => {
    slot := k.processes 0
    idle := (List.range maxProcesses).all (fun i => k.processes i == 0) && k.currentProcess == 0
    guard := k.heapTable (-1)
    res := y.1.1
    process := y.1.2
    taskHead := y.2.taskHead
    currentProcess := y.2.currentProcess
    selfBlock := y.2.heapTable 6
    bufferBlock := y.2.heapTable 16
    room := (List.range 1100).all fun b => y.2.heapTable ((100 + b : ℕ) : Int) == blockFree
    file := y.2.elfFileAt (blockAddr 6)
    inMemory := headerFields (bytesFrom y.2.mem (blockAddr 16))
    content := z.1.map fun c => (c.1, headerFields c.2) }

/-- The fields of the file. -/
def oneSegmentFields (memsz : ℕ) (tail : UInt8) : HeaderFields :=
  ⟨true, 52, 1, ptLoad, 0, 0x1000000, 84, memsz, tail⟩

/-- The structure of the file in block 4, with the file in block 16. -/
def oneSegmentFile : ElfFile :=
  ⟨blockAddr 4, blockAddr 16, 0x1000000, 0x1000054, blockAddr 16, blockAddr 16 + 84⟩

/-- Segments that end in the file, without a tail, with a zero in it or with a one, and one of
100 MiB. -/
def segmentCases : List (ℕ × UInt8) := [(84, 0), (85, 0), (85, 1), (0x6400000, 1)]

/-- The data is loaded. -/
def OneSegmentView (c : ℕ × UInt8) : Prop :=
  (diskSearchAndInit (elfKernel 85 (oneSegment c.1 c.2))).bind (fun x => loadView x.2) =
    some ⟨0, true, 0, 0, blockAddr 6, 0, 0, 193, 65, true, some oneSegmentFile,
      oneSegmentFields c.1 c.2, some (85, oneSegmentFields c.1 c.2)⟩

instance (c : ℕ × UInt8) : Decidable (OneSegmentView c) := inferInstanceAs (Decidable (_ = _))

-- one evaluation for each of the cases, since together they take much memory

theorem oneSegmentView_full : OneSegmentView (84, 0) := by decide +kernel

theorem oneSegmentView_zeroTail : OneSegmentView (85, 0) := by decide +kernel

theorem oneSegmentView_tail : OneSegmentView (85, 1) := by decide +kernel

theorem oneSegmentView_large : OneSegmentView (0x6400000, 1) := by decide +kernel

/-- The data is loaded in every case. -/
theorem oneSegment_view : ∀ c ∈ segmentCases, OneSegmentView c :=
  List.forall_mem_cons.mpr ⟨oneSegmentView_full, List.forall_mem_cons.mpr
    ⟨oneSegmentView_zeroTail, List.forall_mem_cons.mpr ⟨oneSegmentView_tail,
      List.forall_mem_singleton.mpr oneSegmentView_large⟩⟩⟩

/-- The header of the file. -/
theorem OneSegment.of_fields {memsz : ℕ} {tail : UInt8}
    (h : headerFields d = oneSegmentFields memsz tail) : Checked d ∧ phoff d = 52 ∧ phnum d = 1 ∧
      ptype d 0 = ptLoad ∧ poffset d 0 = 0 ∧ pvaddr d 0 = 0x1000000 ∧ pfilesz d 0 = 84 ∧
      pmemsz d 0 = memsz ∧ d 84 = tail := by
  unfold headerFields oneSegmentFields at h
  simp only [HeaderFields.mk.injEq, decide_eq_true_eq] at h
  exact h

/-- The file has been loaded for a process. -/
structure OneSegmentLoaded (memsz : ℕ) (tail : UInt8) (k k₁ k' : Kernel) (d : ℕ → UInt8)
    (p p' : Process)
    (t : Task) (dir : ℕ) (f e : ℕ → ℕ) : Prop where
  mount : diskSearchAndInit (elfKernel 85 (oneSegment memsz tail)) = some ((), k)
  guarded : Guarded k.table
  slot : FirstFreeSlot k.processes 0
  idle : (List.range maxProcesses).all (fun i => k.processes i == 0) = true ∧ k.currentProcess = 0
  content : ∃ kc, processContent smallPath k = some (some (85, d), kc)
  fields : headerFields d = oneSegmentFields memsz tail
  load : processLoad smallPath k = some ((0, blockAddr 6), k')
  task : TaskLoaded k₁ k' (blockAddr 6) 0 p p' t dir f e
  data : p.data = .elfFile oneSegmentFile
  head : k₁.taskHead = 0
  current : k₁.currentProcess = 0
  room : 0 < k'.freeBlocks

/-- The segment can be mapped from where the file is. -/
theorem oneSegment_mapToValid {memsz : ℕ} {tail : UInt8} (hc : (memsz, tail) ∈ segmentCases) :
    MapToValid (pagingAlignToLowerPage 0x1000000)
      (pagingAlignToLowerPage ((oneSegmentFile.elfMemory + 0) % 4294967296))
      (pagingAlignAddress (((oneSegmentFile.elfMemory + 0) % 4294967296 + memsz) %
        4294967296)) := by
  simp only [segmentCases, List.mem_cons, Prod.mk.injEq, List.not_mem_nil, or_false] at hc
  rcases hc with ⟨rfl, -⟩ | ⟨rfl, -⟩ | ⟨rfl, -⟩ | ⟨rfl, -⟩ <;>
    exact ⟨by decide, by decide, by decide, by decide⟩

/-- The block 16 stays as it is. -/
theorem oneSegment_inBuffer {k₁ k₂ : Kernel} (h : k₁.KeepsBytes k₂) (hb : k₁.heapTable 16 = 65) :
    InBuffer k₂.mem oneSegmentFile (bytesFrom k₁.mem (blockAddr 16)) 85 4096 := by
  refine ⟨by decide, le_rfl, by decide, fun j hj => h.byte (blockAddr 16 + j) ⟨?_, ?_⟩⟩
  · unfold blockAddr heapAddress
    omega
  · have hblock : min ((blockAddr 16 + j - heapAddress) / 4096) (heapTotalBlocks - 1) = 16 := by
      unfold blockAddr heapAddress heapTotalBlocks
      omega
    rw [hblock]
    intro hf
    have hfree : k₁.heapTable 16 = blockFree := hf
    rw [hb] at hfree
    exact absurd hfree (by decide)

theorem free_of_all {k : Kernel} {n : ℕ}
    (h : (List.range n).all (fun b => k.heapTable ((100 + b : ℕ) : Int) == blockFree) = true)
    (b : ℕ) (hlo : 100 ≤ b) (hhi : b < 100 + n) : k.table.IsFree b := by
  have hb := List.all_eq_true.mp h (b - 100) (List.mem_range.mpr (by omega))
  rw [Nat.add_sub_cancel' hlo] at hb
  exact beq_iff_eq.mp hb

/-- The data of the process is there. -/
theorem oneSegment_ready {memsz : ℕ} {tail : UInt8} (hc : (memsz, tail) ∈ segmentCases)
    {k : Kernel} {p : Process} (hhead : k.taskHead = 0) (hself : k.heapTable 6 = 193)
    (hbuffer : k.heapTable 16 = 65)
    (hroom : (List.range 1100).all (fun b => k.heapTable ((100 + b : ℕ) : Int) == blockFree) = true)
    (hp : k.store (blockAddr 6) = some (.process p)) (ht : p.filetype = .elf)
    (hd : p.data = .elfFile oneSegmentFile)
    (hfields : headerFields (bytesFrom k.mem (blockAddr 16)) = oneSegmentFields memsz tail) :
    LoadReady k (blockAddr 6) p 100 where
  ne_zero := blockAddr_pos 6
  not_fresh := by
    rintro ⟨b, -, he, hf⟩
    obtain rfl := blockAddr_inj.mp he
    have hfree : k.heapTable 6 = blockFree := hf
    rw [hself] at hfree
    exact absurd hfree (by decide)
  store := hp
  typed := by
    unfold Process.Typed
    rw [ht, hd]
    trivial
  startable _ := ⟨_, hd, blockAddr_pos 16⟩
  appendable h0 := absurd hhead h0
  mappable k₁ hk := by
    obtain ⟨-, hoff, hnum, -, ho, hv, -, hz, -⟩ := OneSegment.of_fields hfields
    refine (oneSegment_inBuffer hk hbuffer).mappable (by rw [hoff]; decide) ?_ hd fun i hi => ?_
    · rw [hoff, hnum]
      decide
    · obtain rfl : i = 0 := by omega
      rw [ho, hv, hz]
      exact oneSegment_mapToValid hc
  inside := by decide
  room b hlo hhi := free_of_all hroom b hlo (by omega)

theorem oneSegment_loads {memsz : ℕ} {tail : UInt8} (hc : (memsz, tail) ∈ segmentCases) :
    ∃ k k₁ k' d p p' t dir f e, OneSegmentLoaded memsz tail k k₁ k' d p p' t dir f e := by
  have hview := oneSegment_view _ hc
  obtain ⟨⟨_, k⟩, hmount, hview⟩ := Option.bind_eq_some_iff.mp hview
  obtain ⟨⟨⟨res, process⟩, k₁⟩, hstart, hview⟩ := Option.bind_eq_some_iff.mp hview
  obtain ⟨⟨content, kc⟩, hcontent, hview⟩ := Option.map_eq_some_iff.mp hview
  simp only [LoadView.mk.injEq, Option.map_eq_some_iff, Prod.mk.injEq] at hview
  obtain ⟨hslot, hidle, hguard, rfl, rfl, hhead, hcurrent, hself, hbuffer, hroom, hfile, hmem,
    ⟨n, d⟩, rfl, rfl,
    hd⟩ := hview
  obtain ⟨p, hp, htype, hdata⟩ := Kernel.elfFileAt_eq_some hfile
  have hfree : FirstFreeSlot k.processes 0 := ⟨by decide, hslot, fun i hi => absurd hi (by omega)⟩
  have hready := oneSegment_ready hc hhead hself hbuffer hroom hp htype hdata hmem
  obtain ⟨k', p', t, dir, f, e, hrun, htask, hcount⟩ := hready.loads smallPath 0
  have hmany : 1100 ≤ k₁.freeBlocks :=
    Kernel.le_freeBlocks (free_of_all hroom) (show 100 + 1100 ≤ heapTotalBlocks by decide)
  refine ⟨k, k₁, k', d, p, p', t, dir, f, e, hmount, ⟨-1, by decide, by decide, ?_⟩, hfree,
    ?_, ⟨kc, hcontent⟩, hd, ?_, htask, hdata, hhead, hcurrent, by omega⟩
  · show k.heapTable (-1) &&& blockHasNext = 0
    rw [hguard]
    rfl
  · simpa using hidle
  · rw [processLoad_of_start hfree hstart, hrun]

theorem oneSegment_load_iff {memsz : ℕ} {tail : UInt8}
    (hf : headerFields d = oneSegmentFields memsz tail) : IsLoad d i ↔ i = 0 := by
  obtain ⟨-, -, hnum, htype, -⟩ := OneSegment.of_fields hf
  rw [IsLoad, hnum]
  constructor
  · rintro ⟨hi, -⟩
    omega
  · rintro rfl
    exact ⟨by decide, htype⟩

theorem oneSegment_layout {memsz : ℕ} {tail : UInt8}
    (hf : headerFields d = oneSegmentFields memsz tail) (hlo : 84 ≤ memsz)
    (hhi : memsz ≤ 0x6400000) : Layout d 85 := by
  obtain ⟨-, hoff, hnum, -, ho, hv, hfs, hz, -⟩ := OneSegment.of_fields hf
  refine ⟨by rw [hoff, hnum]; decide, fun i hi => ?_, fun i hi => ?_, fun i hi => ?_,
    fun i hi => ?_, fun i j page hi hj _ _ => ?_⟩
  · rw [(oneSegment_load_iff hf).mp hi, hv, ho]
  · rw [(oneSegment_load_iff hf).mp hi, hfs, hz]
    exact hlo
  · rw [(oneSegment_load_iff hf).mp hi, ho, hfs]
    decide
  · rw [(oneSegment_load_iff hf).mp hi, hv, hz]
    omega
  · rw [(oneSegment_load_iff hf).mp hi, (oneSegment_load_iff hf).mp hj]

theorem oneSegment_selfContained {memsz : ℕ} {tail : UInt8}
    (hf : headerFields d = oneSegmentFields memsz tail) (hhi : memsz ≤ 85) :
    SelfContained d 85 := by
  obtain ⟨-, -, hnum, htype, ho, hv, -, hz, -⟩ := OneSegment.of_fields hf
  refine ⟨fun i hi => ?_, fun i j page _ hj hno _ => ?_, fun i page hi ⟨x, hx, hpage⟩ => ?_⟩
  · rw [(oneSegment_load_iff hf).mp hi, ho, hz]
    omega
  · obtain rfl : j = 0 := by omega
    exact absurd htype hno
  · rw [(oneSegment_load_iff hf).mp hi, hv] at hpage
    rw [(oneSegment_load_iff hf).mp hi, ho, hz] at hx
    unfold pageCount at hpage
    unfold programVirtualStackAddressStart
    omega

/-- A segment that is a byte longer in memory than in the file is seen as it should be where this
byte is zero in the file. -/
theorem processLoad_image_whole : ∃ k k' d, diskSearchAndInit (elfKernel 85 (oneSegment 85 0)) =
      some ((), k) ∧ processLoad smallPath k = some ((0, blockAddr 6), k') ∧
    headerFields d = oneSegmentFields 85 0 ∧ ImageRight d (blockAddr 6) k' := by
  obtain ⟨k, k₁, k', d, p, p', t, dir, f, e, h⟩ := oneSegment_loads (show (85, 0) ∈ _ by decide)
  obtain ⟨kc, hcontent⟩ := h.content
  obtain ⟨hck, -, -, -, ho, -, hfs, hz, htail⟩ := OneSegment.of_fields h.fields
  refine ⟨k, k', d, h.mount, h.load, h.fields, (processLoad_image_iff h.guarded hcontent hck
    (oneSegment_layout h.fields (by decide) (by decide))
    (oneSegment_selfContained h.fields (by decide)) h.load).mpr fun i hi x hx hx' => ?_⟩
  rw [(oneSegment_load_iff h.fields).mp hi] at hx hx' ⊢
  obtain rfl : x = 84 := by omega
  rw [ho, Nat.zero_add, htail]

/-- The byte behind the segment in the file is seen where there should be a zero. -/
theorem processLoad_image_tail : ∃ k k' kc d, Guarded k.table ∧
    processContent smallPath k = some (some (85, d), kc) ∧ Checked d ∧ Layout d 85 ∧
    processLoad smallPath k = some ((0, blockAddr 6), k') ∧ ¬ImageRight d (blockAddr 6) k' := by
  obtain ⟨k, k₁, k', d, p, p', t, dir, f, e, h⟩ := oneSegment_loads (show (85, 1) ∈ _ by decide)
  obtain ⟨kc, hcontent⟩ := h.content
  obtain ⟨hck, -, -, -, ho, -, hfs, hz, htail⟩ := OneSegment.of_fields h.fields
  have hl := oneSegment_layout h.fields (by decide) (by decide)
  refine ⟨k, k', kc, d, h.guarded, hcontent, hck, hl, h.load, fun hright => ?_⟩
  obtain ⟨p, t, dir, f, e, file, N, himage⟩ :=
    (processLoad_image h.guarded hcontent hck).of_eq h.load rfl
  have hi : IsLoad d 0 := (oneSegment_load_iff h.fields).mpr rfl
  have hbyte := hright 0 hi 84 (by omega)
  rw [himage.processByte_run hck hl (oneSegment_selfContained h.fields (by decide)) hi (by omega),
    if_neg (by omega), Option.some_inj, Prod.mk.injEq, ho, Nat.zero_add, htail] at hbyte
  exact absurd hbyte.1 (by decide)

end Hyperion
