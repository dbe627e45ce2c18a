import Hyperion.AllocationRuns
import Hyperion.ElfImage

/-!
# The image of a running program

`process_malloc` maps an allocation at its own address, and nothing keeps the segments and the
stack of a process away from the addresses of the heap. The pages of the image keep their entries
as long as no request is answered with a block at the address of such a page
(`image_run_kept`).

`Process.ImagePage` are the pages of the segments and of the stack. An allocation is mapped by whole
pages (`ProcessAllocation.Page`), and freeing it only clears flags of those, so that a page of the
image changes only if an allocation comes to lie on it. Whether a request does is decided before it
is made, by the block that first fit answers (`AllocCall.Avoids`). `ImageState` is the invariant :
no allocation is mapped to the pages, which have the entries from before the run.

A program with a segment at the addresses of the heap gets it mapped over by the first request
that is answered there (`image_run_remapped`).
-/

namespace Hyperion

open Partial FreeRun ElfBytes

variable {k k' k₀ k₁ k₂ : Kernel} {process slot n i : ℕ} {p : Process} {t : Task} {dir : ℕ}
  {f e : ℕ → ℕ} {filename : List UInt8}

/-- The entry of the page of `virt` in the space of a process. -/
def processEntry (process virt : ℕ) : KernelM ℕ := do
  let p ← getProcess process
  let t ← getTask p.task
  let directory ← getChunk t.pageDirectory
  pagingGet directory (pagingAlignToLowerPage virt)

theorem ProcessAt.processEntry_run (h : ProcessAt k process p t dir f e) (hn : n < pageCount) :
    processEntry process (n * 4096) k = some (e n, k) := by
  have hlow : pagingAlignToLowerPage (n * 4096) = n * 4096 := by
    unfold pagingAlignToLowerPage
    omega
  have hlt : n * 4096 < 4294967296 := by
    unfold pageCount at hn
    omega
  have hget := h.maps.pagingGet_run (Nat.mul_mod_left n 4096) hlt
  rw [Nat.mul_div_cancel n (by decide)] at hget
  simp [processEntry, getProcess, getTask, run_bind, Kernel.getObj_run h.ne_zero h.self,
    Kernel.getObj_run h.task_ne h.task, h.maps.getChunk_run, run_pure, hlow, hget]

/-- `n` is a page of a segment or of the stack. -/
def Process.ImagePage (p : Process) (m : ℕ → UInt8) (n : ℕ) : Prop :=
  (∃ file i, p.data = .elfFile file ∧ i < file.segments m ∧ file.InSegment m i n) ∨
    programVirtualStackAddressEnd / 4096 ≤ n ∧ n < programVirtualStackAddressStart / 4096

/-- `n` is one of the pages that are mapped for the allocation `a`. -/
def ProcessAllocation.Page (a : ProcessAllocation) (n : ℕ) : Prop :=
  ∃ m < (a.pageEnd - a.ptr) / 4096, n = pageAfter a.ptr m

/-- A request in `k` is not answered with a block whose pages are in `P`. -/
def AllocCall.Avoids (P : ℕ → Prop) (k : Kernel) : AllocCall → Prop
  | .malloc size => ∀ b : ℕ, heapGetStartBlock k.heap (requestBlocks size) = b →
    ∀ n, ProcessAllocation.Page ⟨blockAddr b, size⟩ n → ¬P n
  | .free _ => True

theorem ProcessAllocation.mapped_other {a : ProcessAllocation} {flags : ℕ}
    (hlt : a.ptr < 4294967296) (hn : ¬a.Page n) : a.mapped e flags n = e n :=
  mapTo_of_not_reached hlt fun m hm he => hn ⟨m, hm, he⟩

theorem ProcessAllocation.not_page_null : ¬ProcessAllocation.Page ⟨0, 0⟩ n := by
  rintro ⟨m, hm, -⟩
  have hcount : ((ProcessAllocation.mk 0 0).pageEnd - 0) / 4096 = 0 := by decide
  rw [hcount] at hm
  exact absurd hm (Nat.not_lt_zero m)

/-- The pages in `P` have the entries `e`, and no allocation is mapped to them. -/
def ImageState (P : ℕ → Prop) (e : ℕ → ℕ) (k₀ : Kernel) (process : ℕ) (p : Process) (t : Task)
    (dir : ℕ) (f : ℕ → ℕ) (k : Kernel) : Prop :=
  ∃ al e', AllocState k₀ process p t dir f k al e' ∧ (∀ n, P n → e' n = e n) ∧
    ∀ i < maxProgramAllocations, ∀ n, (al i).Page n → ¬P n

section State

variable {P : ℕ → Prop} {call : AllocCall} {res : ℕ}

theorem ImageState.step (hg : Guarded k₀.table) (h : ImageState P e k₀ process p t dir f k)
    (hstep : AllocStep k ⟨process, call, res⟩ k') (hcall : call.Avoids P k) :
    ImageState P e k₀ process p t dir f k' := by
  obtain ⟨al, e', hstate, hkept, hrecords⟩ := h
  obtain ⟨al', e'', heffect, hstate', -, -⟩ := hstate.step hg hstep
  refine ⟨al', e'', hstate', ?_⟩
  cases heffect with
  | nothing => exact ⟨hkept, hrecords⟩
  | refused => exact ⟨hkept, hrecords⟩
  | @served size b i hb hi _ _ =>
    have hpage := hcall b hb.start
    have hlt : blockAddr b < 4294967296 := hb.fresh.lt
    refine ⟨fun n hn => ?_, fun j hj n hn => ?_⟩
    · exact (ProcessAllocation.mapped_other hlt fun h => hpage n h hn).trans (hkept n hn)
    · simp only at hn
      split_ifs at hn
      · exact hpage n hn
      · exact hrecords j hj n hn
  | @freed ptr j hj hptr _ =>
    have hlt : (al j).ptr < 4294967296 := by
      rcases hstate.records j hj with h0 | hf
      · omega
      · exact hf.lt
    refine ⟨fun n hn => ?_, fun i hi n hn => ?_⟩
    · exact (ProcessAllocation.mapped_other hlt fun h => hrecords j hj n h hn).trans (hkept n hn)
    · simp only at hn
      split_ifs at hn
      · exact absurd hn ProcessAllocation.not_page_null
      · exact hrecords i hi n hn

end State

/-- A load that succeeds. -/
theorem processLoad_loaded (hg : Guarded k.table)
    (hload : processLoad filename k = some ((0, process), k₁)) :
    ∃ slot p t dir f e, Loaded k k₁ process slot p t dir f e := by
  obtain ⟨hneg, -⟩ | ⟨hneg, -⟩ | ⟨slot, p, t, dir, f, e, -, -, hloaded⟩ :=
    (processLoad_meets hg).of_eq hload
  · exact absurd hneg (lt_irrefl _)
  · exact absurd hneg (lt_irrefl _)
  · exact ⟨slot, p, t, dir, f, e, hloaded⟩

theorem ProcessAt.unique {p' : Process} (h : ProcessAt k process p t dir f e)
    (hp : k.store process = some (.process p')) : p = p' := by
  have hself := h.self
  rw [hp] at hself
  cases hself
  rfl

/-- A process that has just been loaded has recorded nothing. -/
theorem Loaded.allocations (h : Loaded k k₁ process slot p t dir f e) (i : ℕ) :
    p.allocations i = ⟨0, 0⟩ := by
  obtain ⟨_, _, _, _, _, _, hsame⟩ := h.same
  rw [hsame]
  rfl

theorem Loaded.allocState (h : Loaded k k₁ process slot p t dir f e) :
    AllocState k₁ process p t dir f k₁ p.allocations e where
  keeps := .refl _
  at_process := h.at_process
  pointers a ha := by
    by_cases he : a = process
    · exact he ▸ h.owns.not_fresh
    · exact (h.space a ha he).2.not_fresh
  records i _ := .inl (by rw [h.allocations])

theorem Loaded.guarded (h : Loaded k k₁ process slot p t dir f e) (hg : Guarded k.table) :
    Guarded k₁.table := by
  have hkeeps := h.ext.keeps
  rw [Kernel.setNext_table] at hkeeps
  exact hkeeps.guarded hg

/-- As long as no request is answered with a block at the address of a page of the image, the
pages of the image keep the entries that they got when the process was loaded. -/
theorem image_run_kept (hg : Guarded k.table)
    (hload : processLoad filename k = some ((0, process), k₁))
    (hp : k₁.store process = some (.process p))
    {tr : List (Kernel × AllocEvent × Kernel)} (htr : Trace AllocStep k₁ tr k₂)
    (hown : ∀ x ∈ tr, x.2.1.process = process)
    (havoid : ∀ x ∈ tr, x.2.1.call.Avoids (p.ImagePage k₁.mem) x.1) :
    ∀ n < pageCount, p.ImagePage k₁.mem n → ∃ v, processEntry process (n * 4096) k₁ = some (v, k₁) ∧
      processEntry process (n * 4096) k₂ = some (v, k₂) := by
  obtain ⟨slot, p', t, dir, f, e, hloaded⟩ := processLoad_loaded hg hload
  obtain rfl := hloaded.at_process.unique hp
  have hstate := hloaded.allocState
  have hg₁ := hloaded.guarded hg
  have h₀ : ImageState (p'.ImagePage k₁.mem) e k₁ process p' t dir f k₁ := by
    refine ⟨_, e, hstate, fun _ _ => rfl, fun i hi n hn => ?_⟩
    rw [hloaded.allocations] at hn
    exact absurd hn ProcessAllocation.not_page_null
  have hlast := (htr.invariant (I := ImageState (p'.ImagePage k₁.mem) e k₁ process p' t dir f)
    (C := fun s ev _ => ev.process = process ∧ ev.call.Avoids (p'.ImagePage k₁.mem) s) h₀
    (fun s ev s' hs ⟨hpr, hav⟩ hI => by
      obtain ⟨_, call, res⟩ := ev
      obtain rfl : _ = process := hpr
      exact hI.step hg₁ hs hav) fun x hx => ⟨hown x hx, havoid x hx⟩).2
  obtain ⟨al, e', hstate', hkept, -⟩ := hlast
  intro n hn hpage
  refine ⟨e n, hloaded.at_process.processEntry_run hn, ?_⟩
  rw [hstate'.at_process.processEntry_run hn, hkept n hpage]

/-- The image of the process that was loaded from the file with one segment. -/
theorem oneSegment_image {memsz : ℕ} {tail : UInt8} {k k₁ k' : Kernel} {d : ℕ → UInt8}
    {p p' : Process} (h : OneSegmentLoaded memsz tail k k₁ k' d p p' t dir f e) :
    p'.data = .elfFile oneSegmentFile ∧ oneSegmentFile.elfMemory % 4096 = 0 ∧
      oneSegmentFile.segments k'.mem = 1 ∧ oneSegmentFile.vaddr k'.mem 0 = 0x1000000 ∧
      oneSegmentFile.offset k'.mem 0 = 0 ∧ oneSegmentFile.memsz k'.mem 0 = memsz := by
  obtain ⟨kc, hcontent⟩ := h.content
  obtain ⟨hck, hoff, hnum, -, ho, hv, -, hz, -⟩ := OneSegment.of_fields h.fields
  obtain ⟨q, t', dir', f', e', file, N, himage⟩ :=
    (processLoad_image h.guarded hcontent hck).of_eq h.load rfl
  obtain rfl := himage.at_process.unique h.task.at_process.self
  obtain rfl : file = oneSegmentFile := by
    obtain ⟨_, _, _, hsame⟩ := h.task.same
    have hdata := himage.data
    rw [hsame] at hdata
    have hdata' : p.data = _ := hdata
    rw [h.data] at hdata'
    cases hdata'
    rfl
  have hbuf := himage.buffer
  have hheaders : phoff d + phdrSize * phnum d ≤ 85 := by
    rw [hoff, hnum]
    decide
  have hoff0 : phoff d ≠ 0 := by
    rw [hoff]
    decide
  have hi : 0 < phnum d := by omega
  exact ⟨himage.data, himage.elfMemory_mod, hbuf.phnum_eq.trans hnum,
    (hbuf.vaddr_eq hoff0 hheaders hi).trans hv, (hbuf.offset_eq hoff0 hheaders hi).trans ho,
    (hbuf.memsz_eq hoff0 hheaders hi).trans hz⟩

/-- The structures of that process are taken. -/
theorem oneSegment_not_fresh {memsz : ℕ} {tail : UInt8} {k k₁ k' : Kernel} {d : ℕ → UInt8}
    {p p' : Process} (h : OneSegmentLoaded memsz tail k k₁ k' d p p' t dir f e) :
    ∀ a, ProcessPointer (blockAddr 6) p' t dir f a → ¬k'.Fresh a := by
  obtain ⟨slot, q, t', dir', f', e', hloaded⟩ := processLoad_loaded h.guarded h.load
  intro a ha
  by_cases he : a = blockAddr 6
  · exact he ▸ hloaded.owns.not_fresh
  · exact (h.task.space a ha he).2.not_fresh

/-- The block that first fit answers is free. -/
theorem Kernel.startBlock_free {m b : ℕ} (hs : heapGetStartBlock k.heap m = b) :
    b < heapTotalBlocks ∧ k.table.IsFree b := by
  rcases heapGetStartBlock_cases k.heap m with ⟨c, hc, hpos, hrun⟩ | ⟨c, hc, -, hlast⟩ | ⟨hc, -, -⟩
  · obtain rfl : b = c := by omega
    have hin : b + m ≤ heapTotalBlocks := hrun.inside
    exact ⟨by omega, hrun.run b le_rfl (by omega)⟩
  · obtain rfl : b = c := by omega
    have hlt := hlast.lt
    exact ⟨hlt, hlast.run b le_rfl (by omega)⟩
  · rw [hs] at hc
    exact absurd hc (by unfold ENOMEM; omega)

/-- Two blocks behind the first one of the heap are not at the segment of that process. -/
theorem oneSegment_avoids {k k₁ k₂ k' : Kernel} {d : ℕ → UInt8} {p p' : Process}
    (h : OneSegmentLoaded 84 0 k k₁ k' d p p' t dir f e) (h0 : ¬k₂.table.IsFree 0) :
    (AllocCall.malloc 5000).Avoids (p'.ImagePage k'.mem) k₂ := by
  intro b hb n hpage himage
  obtain ⟨hlt, hfree⟩ := Kernel.startBlock_free hb
  have hpos : b ≠ 0 := by
    rintro rfl
    exact h0 hfree
  unfold heapTotalBlocks at hlt
  obtain ⟨m, hm, rfl⟩ := hpage
  have hm : m < 2 := by
    unfold ProcessAllocation.pageEnd pagingAlignAddress blockAddr heapAddress at hm
    dsimp only at hm
    split_ifs at hm <;> omega
  have hn : pageAfter (blockAddr b) m = 0x1000 + b + m := by
    unfold pageAfter blockAddr heapAddress pageCount
    omega
  rw [hn] at himage
  rcases himage with ⟨file, i, hfile, hi, hin⟩ | ⟨-, hin⟩
  · obtain ⟨hdata, -, hsegments, hvaddr, -, hmemsz⟩ := oneSegment_image h
    rw [hdata, ProcessData.elfFile.injEq] at hfile
    subst hfile
    obtain rfl : i = 0 := by omega
    rw [ElfFile.InSegment, hvaddr, hmemsz] at hin
    omega
  · unfold programVirtualStackAddressStart at hin
    omega

/-- The process with one segment frees a pointer that it was not given, asks for two blocks and
frees them. Its stack and its segment, which has the address of the first block of the heap, stay
mapped as they were. -/
theorem image_run_kept_served : ∃ k k₁ k₂ k₃ k₄ res,
    processLoad smallPath k = some ((0, blockAddr 6), k₁) ∧
      Trace AllocStep k₁ [(k₁, ⟨blockAddr 6, .free 0x500000, 0⟩, k₂),
        (k₂, ⟨blockAddr 6, .malloc 5000, res⟩, k₃), (k₃, ⟨blockAddr 6, .free res, 0⟩, k₄)] k₄ ∧
      ∀ n ∈ [programVirtualStackAddressEnd / 4096, 0x1000],
        ∃ v, processEntry (blockAddr 6) (n * 4096) k₁ = some (v, k₁) ∧
          processEntry (blockAddr 6) (n * 4096) k₄ = some (v, k₄) := by
  obtain ⟨k, k₀, k₁, d, p₀, p, t, dir, f, e, h⟩ := oneSegment_loads (show (84, 0) ∈ _ by decide)
  obtain ⟨slot, q, t', dir', f', e', hloaded⟩ := processLoad_loaded h.guarded h.load
  obtain rfl := hloaded.at_process.unique h.task.at_process.self
  have hg := hloaded.guarded h.guarded
  have h₁ := hloaded.allocState
  have hstep₂ : Meets True (processFree (blockAddr 6) 0x500000) k₁ _ :=
    processFree_rule h₁.at_process (by decide)
  obtain ⟨⟨⟩, k₂, hfree, -⟩ := hstep₂.exists_result
  obtain ⟨al₂, e₂, -, h₂, -⟩ := h₁.step hg (.free hfree (by decide))
  have hstep₃ : Meets True (processMalloc (blockAddr 6) 5000) k₂ _ := processMalloc_rule
    h₂.at_process (fun a ha => h₂.not_fresh (ProcessPointer.withRecords.mp ha)) fun _ => by decide
  obtain ⟨res, k₃, hmalloc, hres⟩ := hstep₃.exists_result
  obtain ⟨al₃, e₃, -, h₃, -⟩ := h₂.step hg (.malloc hmalloc (by decide))
  have hlt : res < 4294967296 := by
    rcases hres with ⟨rfl, -⟩ | ⟨b, hb, ⟨-, rfl, -⟩ | ⟨i, k₂, rfl, -⟩⟩
    · decide
    · decide
    · have := blockAddr_lt hb.lt
      omega
  have hstep₄ : Meets True (processFree (blockAddr 6) res) k₃ _ :=
    processFree_rule h₃.at_process hlt
  obtain ⟨⟨⟩, k₄, hfree', -⟩ := hstep₄.exists_result
  have hrun := Trace.cons (AllocStep.free hfree (by decide)) (.cons (.malloc hmalloc (by decide))
    (.cons (.free hfree' hlt) (.nil k₄)))
  -- the first block of the heap is taken from the mount on
  have hblock : ¬k₂.table.IsFree 0 := by
    have hmount : (diskSearchAndInit (elfKernel 85 (oneSegment 84 0))).map (fun x =>
        x.2.heapTable 0 == blockFree) = some false := by decide +kernel
    rw [h.mount] at hmount
    have htaken : ¬k.table.IsFree 0 := by
      show ¬k.heapTable 0 = blockFree
      simpa using hmount
    have hkeeps := hloaded.ext.keeps
    rw [Kernel.setNext_table] at hkeeps
    exact (hkeeps.trans h₂.keeps).not_isFree (show 0 < heapTotalBlocks by decide) htaken
  refine ⟨k, k₁, k₂, k₃, k₄, res, h.load, hrun, fun n hn => ?_⟩
  have hkept := image_run_kept h.guarded h.load hloaded.at_process.self hrun (by simp)
    fun x hx => by
    simp only [List.mem_cons, List.not_mem_nil, or_false] at hx
    rcases hx with rfl | rfl | rfl
    · trivial
    · exact oneSegment_avoids h hblock
    · trivial
  obtain ⟨hdata, -, hsegments, hvaddr, -, hmemsz⟩ := oneSegment_image h
  simp only [List.mem_cons, List.not_mem_nil, or_false] at hn
  rcases hn with rfl | rfl
  · exact hkept _ (by decide) (.inr ⟨le_rfl, by decide⟩)
  · refine hkept _ (by decide) (.inl ⟨_, 0, hdata, by omega, ?_⟩)
    rw [ElfFile.InSegment, hvaddr, hmemsz]
    decide

/-- The entries of a file whose only segment is longer than the heap. -/
theorem oneSegment_entry {k k₁ k' : Kernel} {d : ℕ → UInt8} {p p' : Process}
    (h : OneSegmentLoaded 0x6400000 1 k k₁ k' d p p' t dir f e) {b : ℕ} (hb : b < heapTotalBlocks) :
    p'.ImagePage k'.mem (blockAddr b / 4096) ∧ ∃ flags < 4096,
      e (blockAddr b / 4096) = (blockAddr 16 + b * 4096) ||| flags := by
  obtain ⟨hdata, halign, hsegments, hvaddr, hoffset, hmemsz⟩ := oneSegment_image h
  have hmemory : oneSegmentFile.elfMemory = blockAddr 16 := rfl
  have hpage : blockAddr b / 4096 = 0x1000 + b := by
    unfold blockAddr heapAddress
    omega
  unfold heapTotalBlocks at hb
  have hin : oneSegmentFile.InSegment k'.mem 0 (blockAddr b / 4096) := by
    rw [ElfFile.InSegment, hvaddr, hmemsz, hpage]
    omega
  have hfits : oneSegmentFile.SegmentFits k'.mem 0 := by
    refine ⟨halign, by rw [hvaddr, hoffset], by rw [hvaddr, hmemsz]; decide, ?_⟩
    rw [hmemory, hoffset, hmemsz]
    decide
  refine ⟨.inl ⟨_, 0, hdata, by omega, hin⟩, oneSegmentFile.pageFlags k'.mem 0, ?_, ?_⟩
  · unfold ElfFile.pageFlags
    split_ifs <;> decide
  · have hother : programVirtualStackAddressStart / 4096 ≤ blockAddr b / 4096 := by
      rw [hpage]
      unfold programVirtualStackAddressStart
      omega
    rw [h.task.entries, Process.entries, tryMapTo_stack_other (.inr hother), Process.imageEntries,
      hdata]
    show mapSegments (elfSegment oneSegmentFile k'.mem) (oneSegmentFile.segments k'.mem) 0
      identityEntries _ = _
    rw [hsegments, mapSegments, mapSegments]
    rcases mapTo_elfSegment hfits identityEntries (blockAddr b / 4096) with ⟨-, he⟩ | ⟨hno, -⟩
    · have hlow : pagingAlignToLowerPage (blockAddr 16 + 0) = blockAddr 16 := by
        unfold pagingAlignToLowerPage blockAddr heapAddress
        omega
      have hsub : 0x1000 + b - 0x1000000 / 4096 = b := by omega
      rw [he, ElfFile.segmentEntry, hvaddr, hoffset, hmemory, hpage, hlow, hsub]
    · exact absurd hin hno

/-- A program with a segment at the addresses of the heap asks for a page. -/
theorem image_run_remapped : ∃ k k₁ p k₂ b, Guarded k.table ∧
    processLoad smallPath k = some ((0, blockAddr 6), k₁) ∧
    k₁.store (blockAddr 6) = some (.process p) ∧
    Trace AllocStep k₁ [(k₁, ⟨blockAddr 6, .malloc 4096, blockAddr b⟩, k₂)] k₂ ∧
    blockAddr b / 4096 < pageCount ∧ p.ImagePage k₁.mem (blockAddr b / 4096) ∧
    ¬∃ v, processEntry (blockAddr 6) (blockAddr b / 4096 * 4096) k₁ = some (v, k₁) ∧
      processEntry (blockAddr 6) (blockAddr b / 4096 * 4096) k₂ = some (v, k₂) := by
  obtain ⟨k, k₀, k₁, d, p₀, p, t, dir, f, e, h⟩ :=
    oneSegment_loads (show (0x6400000, 1) ∈ _ by decide)
  obtain ⟨slot, q, t', dir', f', e', hloaded⟩ := processLoad_loaded h.guarded h.load
  have hat := h.task.at_process
  obtain rfl := hloaded.at_process.unique hat.self
  have hnf := oneSegment_not_fresh h
  obtain ⟨b₀, hb₀, hfree₀⟩ := Kernel.exists_free h.room
  have hone : blocksFor 4096 = 1 := by decide
  obtain ⟨b, hfirst, hblocks, hrun⟩ := Kernel.kzalloc_hasRun (k := k₁) (show 1 ≤ 4096 by decide)
    ⟨b₀, by rw [hone]; omega, fun i hi hi' => by
      obtain rfl : i = b₀ := by rw [hone] at hi'; omega
      exact hfree₀⟩
  have hb : b < heapTotalBlocks := by
    have := hfirst.inside
    rw [hone] at this
    omega
  obtain ⟨res, k₂, hmalloc, ⟨rfl, i, -, hdone⟩ | ⟨-, hall, -⟩⟩ :=
    (processMalloc_meets hat hnf (show 1 ≤ 4096 by decide) hfirst hblocks hrun).exists_result
  · obtain ⟨himage, flags, hflags, hentry⟩ := oneSegment_entry h hb
    have hlt := blockAddr_lt hb
    have hpage : blockAddr b / 4096 < pageCount := by
      unfold pageCount
      omega
    obtain ⟨e₂, hat₂, hnew, -⟩ := hdone.pages
    have hnew := hnew 0 (by rw [hone]; decide)
    rw [Nat.add_zero, Nat.zero_mul, Nat.add_zero] at hnew
    refine ⟨k, k₁, q, k₂, b, h.guarded, h.load, hat.self, .cons (.malloc hmalloc (by decide))
      (.nil _),
      hpage, himage, ?_⟩
    rintro ⟨v, hv₁, hv₂⟩
    rw [hat.processEntry_run hpage, Option.some_inj, Prod.mk.injEq] at hv₁
    rw [hat₂.processEntry_run hpage, Option.some_inj, Prod.mk.injEq] at hv₂
    have heq : entryAddress (blockAddr b ||| userPageFlags) =
        entryAddress ((blockAddr 16 + b * 4096) ||| flags) := by
      rw [← hnew, ← hentry, hv₁.1, hv₂.1]
    rw [entryAddress_or (blockAddr_mod b) (by omega) (by decide), entryAddress_or _ _ hflags] at heq
    · unfold blockAddr at heq
      omega
    · unfold blockAddr heapAddress
      omega
    · unfold blockAddr heapAddress
      unfold heapTotalBlocks at hb
      omega
  · have hempty := hall 0 (by decide)
    rw [hloaded.allocations] at hempty
    exact absurd rfl hempty

end Hyperion
