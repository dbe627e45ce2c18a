import Hyperion.ProcessHeap
import Hyperion.Lib.Trace

/-!
# Runs of `process_malloc` and `process_free`

What the two functions do whatever the heap answers. A request of 0 bytes is answered with a
block that is not taken, and a request that is too large with a run that is too short, so the
pointers that processes hold need not be allocations. The structures of the processes are not
touched all the same : every block that is taken or freed was free before the run
(`AllocState`).

`processMalloc_rule` and `processFree_rule` have one case for each return of the functions. The
first asks which block the heap answers (`Kernel.Serves`) and which record is empty, the second
which record is the first one of the pointer (`FirstRecord`). `AllocEffect` is what a call does to
the records of a process and to the entries of its page tables : pages that are mapped get their
flags up to the end of the last page (`ProcessAllocation.pageEnd`).

`AllocState.step` is one call and `AllocState.run` a run of calls by one process. Between the two
states only blocks that were not taken before have changed hands (`Keeps`), so that the structures
of the process are where they were and the records and entries are all that a call changes.
-/

namespace Hyperion

open Partial FreeRun

variable {k k' k₀ k₁ k₂ : Kernel} {process size ptr a b n i : ℕ} {p : Process} {t : Task} {d : ℕ}
  {f e : ℕ → ℕ} {r : Prop}

/-! ## The answers of the heap -/

/-- `kzalloc` answers a request of `size` bytes with block `b`, the one that
`heap_get_start_block` finds. -/
structure Kernel.Serves (k : Kernel) (size b : ℕ) : Prop extends k.Answers size b where
  start : heapGetStartBlock k.heap (requestBlocks size) = b

theorem Kernel.kzalloc_serves {Q : ℕ → Kernel → Prop} (hr : r → size ≤ 0xF0000000)
    (hnull : heapGetStartBlock k.heap (requestBlocks size) = -ENOMEM → Q 0 k)
    (hQ : ∀ b, k.Serves size b → Q (blockAddr b) (k.allocated b size)) :
    Meets r (kzalloc size) k Q := by
  have hserved {b : ℕ} (hs : heapGetStartBlock k.heap (requestBlocks size) = b)
      (hb : b < heapTotalBlocks)
      (hrun : ∀ i, b ≤ i → i < b + requestBlocks size → i < heapTotalBlocks → k.table.IsFree i)
      (hfree : k.table.IsFree b) : Meets r (kzalloc size) k Q := by
    have he := kzalloc_of_start hb hs
    by_cases hbig : 4294967296 < blockAddr b + size
    · refine .of_run_none (by rw [he, if_pos hbig]) fun h => ?_
      have := hr h
      have := blockAddr_lt hb
      omega
    · rw [if_neg hbig] at he
      exact .of_run_eq he (hQ b ⟨⟨hb, hfree, hrun, by omega⟩, hs⟩)
  rcases heapGetStartBlock_cases k.heap (requestBlocks size) with ⟨b, hs, hpos, hrun⟩ |
    ⟨b, hs, -, hlast⟩ | ⟨hs, -, -⟩
  · have hb : b + requestBlocks size ≤ heapTotalBlocks := hrun.inside
    exact hserved hs (by omega) (fun i hi hi' _ => hrun.run i hi hi')
      (hrun.run b le_rfl (by omega))
  · have hb : b < heapTotalBlocks := hlast.lt
    have htotal : k.heap.table.total = heapTotalBlocks := rfl
    exact hserved hs hb (fun i hi _ hin => hlast.run i hi (by omega))
      (hlast.run b le_rfl (by omega))
  · exact .of_run_eq (kzalloc_of_full hs) (hnull hs)

/-! ## The two functions -/

/-- The end of the pages that are mapped for an allocation. -/
def ProcessAllocation.pageEnd (a : ProcessAllocation) : ℕ :=
  pagingAlignAddress ((a.ptr + a.size) % 4294967296)

/-- The entries when the pages of an allocation get `flags`. -/
def ProcessAllocation.mapped (a : ProcessAllocation) (e : ℕ → ℕ) (flags : ℕ) : ℕ → ℕ :=
  mapTo e a.ptr a.ptr a.pageEnd flags

/-- `process_malloc`, whatever the heap answers. -/
theorem processMalloc_rule (h : ProcessAt k process p t d f e)
    (hf : ∀ a, ProcessPointer process p t d f a → ¬k.Fresh a) (hr : r → size ≤ 0xF0000000) :
    Meets r (processMalloc process size) k fun res k' => (res = 0 ∧ k' = k ∧
        heapGetStartBlock k.heap (requestBlocks size) = -ENOMEM) ∨
      ∃ b, k.Serves size b ∧
        ((((∀ i < maxProgramAllocations, (p.allocations i).ptr ≠ 0) ∨
            ¬MapToValid (blockAddr b) (blockAddr b)
              (ProcessAllocation.pageEnd ⟨blockAddr b, size⟩)) ∧
          res = 0 ∧ k' = (k.allocated b size).release (blockAddr b)) ∨
          ∃ i k₂, res = blockAddr b ∧ FirstEmptyRecord p i ∧
            TablesOnly f (k.allocated b size) k₂ ∧
            ProcessAt k₂ process p t d f
              (ProcessAllocation.mapped ⟨blockAddr b, size⟩ e userPageFlags) ∧
            k' = k₂.put process (.process (p.withAllocation i ⟨blockAddr b, size⟩))) := by
  rw [processMalloc, Meets.bind_iff]
  refine Kernel.kzalloc_serves hr (fun hnull => ?_) fun b hb => ?_
  · rw [if_pos rfl, Meets.pure_iff]
    exact .inl ⟨rfl, rfl, hnull⟩
  · have h₁ : ProcessAt (k.allocated b size) process p t d f e := h.allocated hb.fresh hf
    have hlt : blockAddr b < 4294967296 := by
      have := blockAddr_lt hb.lt
      omega
    rw [if_neg (blockAddr_pos b), Meets.bind_iff, Kernel.getProcess_meets h₁.ne_zero h₁.self]
    rcases processFindFreeAllocationIndex_cases p with ⟨i, hi, he⟩ | ⟨hall, he⟩
    · simp only [he, Int.toNat_natCast]
      rw [if_neg (by omega), Meets.bind_iff, Kernel.getTask_meets h₁.task_ne h₁.task]
      refine .bind (pagingMapTo_meets h₁.maps hlt) ?_
      rintro res k₂ (⟨rfl, -, hm, ht⟩ | ⟨hneg, hno, rfl⟩)
      · have h₂ := h₁.tables ht hm
        rw [if_neg (lt_irrefl 0), Meets.bind_iff, Kernel.modifyProcess_meets h₂.ne_zero h₂.self,
          Meets.pure_iff]
        exact .inr ⟨b, hb, .inr ⟨i, k₂, rfl, hi, ht, h₂, rfl⟩⟩
      · rw [if_pos hneg, kfree, Meets.bind_iff, Meets.modify_iff, Meets.pure_iff]
        exact .inr ⟨b, hb, .inl ⟨.inr hno, rfl, rfl⟩⟩
    · simp only [he]
      rw [if_pos (by decide), kfree, Meets.bind_iff, Meets.modify_iff, Meets.pure_iff]
      exact .inr ⟨b, hb, .inl ⟨.inl hall, rfl, rfl⟩⟩

/-- `a` is the first record of `ptr` in `p`. -/
structure FirstRecord (p : Process) (ptr : ℕ) (a : ProcessAllocation) : Prop where
  at_ptr : a.ptr = ptr
  exists_index : ∃ j < maxProgramAllocations, p.allocations j = a ∧
    ∀ j' < j, (p.allocations j').ptr ≠ ptr

theorem processGetAllocationByAddrLoop_some (p : Process) (ptr : ℕ) {a : ProcessAllocation} :
    ∀ fuel i : ℕ, processGetAllocationByAddrLoop p ptr fuel i = some a →
      a.ptr = ptr ∧ ∃ j, i ≤ j ∧ j < i + fuel ∧ p.allocations j = a ∧
        ∀ j', i ≤ j' → j' < j → (p.allocations j').ptr ≠ ptr
  | 0, i, h => nomatch h
  | fuel + 1, i, h => by
    rw [processGetAllocationByAddrLoop] at h
    split_ifs at h with hi
    · cases h
      exact ⟨hi, i, le_rfl, by omega, rfl, fun j' h1 h2 => by omega⟩
    · obtain ⟨hptr, j, hj, hj', ha, hfirst⟩ :=
        processGetAllocationByAddrLoop_some p ptr fuel (i + 1) h
      refine ⟨hptr, j, by omega, by omega, ha, fun j' h1 h2 => ?_⟩
      rcases Nat.eq_or_lt_of_le h1 with rfl | hlt
      · exact hi
      · exact hfirst j' hlt h2

/-- What `process_get_allocation_by_addr` finds is the first record of the pointer. -/
theorem processGetAllocationByAddr_some {a : ProcessAllocation}
    (h : processGetAllocationByAddr p ptr = some a) : FirstRecord p ptr a := by
  obtain ⟨hptr, j, -, hj, ha, hfirst⟩ := processGetAllocationByAddrLoop_some p ptr _ 0 h
  exact ⟨hptr, j, by omega, ha, fun j' hj' => hfirst j' (Nat.zero_le j') hj'⟩

/-- `process_free` : nothing is done, or the first record of the pointer goes, and the heap
frees the pointer. -/
theorem processFree_rule (h : ProcessAt k process p t d f e) (hlt : ptr < 4294967296) :
    Meets r (processFree process ptr) k fun _ k' => k' = k ∨ ∃ a k₂, FirstRecord p ptr a ∧
      TablesOnly f k k₂ ∧ ProcessAt k₂ process p t d f (a.mapped e 0) ∧
      k' = (k₂.put process (.process (processAllocationUnjoin p ptr))).release ptr := by
  rw [processFree, Meets.bind_iff, Kernel.getProcess_meets h.ne_zero h.self]
  cases hget : processGetAllocationByAddr p ptr with
  | none => exact Meets.pure_iff.mpr (.inl rfl)
  | some a =>
    have ha := processGetAllocationByAddr_some hget
    obtain ⟨rfl, hfirst⟩ := ha
    simp only
    rw [Meets.bind_iff, Kernel.getTask_meets h.task_ne h.task]
    refine .bind (pagingMapTo_meets h.maps hlt) ?_
    rintro res k₂ (⟨rfl, -, hm, ht⟩ | ⟨hneg, -, rfl⟩)
    · have h₂ := h.tables ht hm
      rw [if_neg (lt_irrefl 0), Meets.bind_iff, Kernel.modifyProcess_meets h₂.ne_zero h₂.self,
        kfree, Meets.modify_iff]
      exact .inr ⟨a, k₂, ⟨rfl, hfirst⟩, ht, h₂, rfl⟩
    · rw [if_pos hneg, Meets.pure_iff]
      exact .inl rfl

/-! ## Runs -/

/-- A call of one of the two functions. -/
inductive AllocCall
  | malloc (size : ℕ)
  | free (ptr : ℕ)

/-- A call by the process at `process`, with its result. -/
structure AllocEvent where
  process : ℕ
  call : AllocCall
  result : ℕ

/-- A call by a process. The arguments are 32-bit words. -/
inductive AllocStep : Kernel → AllocEvent → Kernel → Prop
  | malloc {k k' : Kernel} {process size res : ℕ} :
      processMalloc process size k = some (res, k') → size < 4294967296 →
      AllocStep k ⟨process, .malloc size, res⟩ k'
  | free {k k' : Kernel} {process ptr : ℕ} :
      processFree process ptr k = some ((), k') → ptr < 4294967296 →
      AllocStep k ⟨process, .free ptr, 0⟩ k'

/-- The process with the records `al`. -/
def Process.withRecords (p : Process) (al : ℕ → ProcessAllocation) : Process :=
  { p with allocations := al }

/-- What a call that turns `k` into `k'` does to the records `al` and the entries `e` of the
process that makes it. -/
inductive AllocEffect (k k' : Kernel) (al : ℕ → ProcessAllocation) (e : ℕ → ℕ) :
    AllocCall → ℕ → (ℕ → ProcessAllocation) → (ℕ → ℕ) → Prop
  | nothing {call : AllocCall} : k' = k → AllocEffect k k' al e call 0 al e
  | refused {size b : ℕ} : k.Serves size b →
      k'.heapTable = ((k.allocated b size).release (blockAddr b)).heapTable →
      AllocEffect k k' al e (.malloc size) 0 al e
  | served {size b i : ℕ} : k.Serves size b → i < maxProgramAllocations → (al i).ptr = 0 →
      k'.heapTable = (k.allocated b size).heapTable →
      AllocEffect k k' al e (.malloc size) (blockAddr b)
        (fun j => if j = i then ⟨blockAddr b, size⟩ else al j)
        (ProcessAllocation.mapped ⟨blockAddr b, size⟩ e userPageFlags)
  | freed {ptr j : ℕ} : j < maxProgramAllocations → (al j).ptr = ptr →
      k'.heapTable = (k.release ptr).heapTable →
      AllocEffect k k' al e (.free ptr) 0
        (fun i => if i < maxProgramAllocations ∧ (al i).ptr = ptr then ⟨0, 0⟩ else al i)
        ((al j).mapped e 0)

/-- The process at `process`, which was `p`, has the records `al` and the entries `e`. Its
structures were not free in `k₀`, and what it has recorded was. -/
structure AllocState (k₀ : Kernel) (process : ℕ) (p : Process) (t : Task) (d : ℕ) (f : ℕ → ℕ)
    (k : Kernel) (al : ℕ → ProcessAllocation) (e : ℕ → ℕ) : Prop where
  keeps : Keeps k₀.table k.table
  at_process : ProcessAt k process (p.withRecords al) t d f e
  pointers : ∀ a, ProcessPointer process p t d f a → ¬k₀.Fresh a
  records : ∀ i < maxProgramAllocations, (al i).ptr = 0 ∨ k₀.Fresh (al i).ptr

theorem Kernel.Fresh.lt (h : k.Fresh a) : a < 4294967296 := by
  obtain ⟨b, hb, rfl, -⟩ := h
  have := blockAddr_lt hb
  omega

/-- What is free later was free. -/
theorem Keeps.fresh (h : Keeps k₀.table k.table) (hf : k.Fresh a) : k₀.Fresh a := by
  obtain ⟨b, hb, rfl, hfree⟩ := hf
  refine ⟨b, hb, rfl, ?_⟩
  by_contra hno
  exact h.not_isFree hb hno hfree

theorem Keeps.allocated (h : Keeps k₀.table k.table) (hb : k.Answers size b) :
    Keeps k₀.table (k.allocated b size).table := by
  rw [Kernel.allocated_table]
  exact h.trans (Keeps.mark k.heap hb.run)

theorem Keeps.release (h : Keeps k₀.table k.table) (hg : Guarded k₀.table)
    (ha : a = 0 ∨ k₀.Fresh a) : Keeps k₀.table (k.release a).table := by
  rcases ha with rfl | ⟨b, hb, rfl, hfree⟩
  · rw [Kernel.release_table, Kernel.heapAddressToBlock_null]
    exact h.free_null hg
  · rw [Kernel.release_table, Kernel.heapAddressToBlock_blockAddr k hb]
    exact h.free fun _ => hfree

theorem Keeps.of_heapTable (h : Keeps k₀.table k.table) (ht : k'.heapTable = k.heapTable) :
    Keeps k₀.table k'.table := by
  have htable : k'.table = k.table := by simp [Kernel.table, Kernel.heap, ht]
  exact htable ▸ h

section State

variable {al : ℕ → ProcessAllocation} {call : AllocCall} {res : ℕ}

/-- A pointer of the process is not the table of another pointer. -/
theorem AllocState.not_fresh (h : AllocState k₀ process p t d f k al e)
    (ha : ProcessPointer process p t d f a) : ¬k.Fresh a :=
  fun hf => h.pointers a ha (h.keeps.fresh hf)

theorem ProcessPointer.withRecords :
    ProcessPointer process (p.withRecords al) t d f a ↔ ProcessPointer process p t d f a := by
  constructor
  · rintro (_ | _ | _ | _ | hi)
    · exact .self
    · exact .task
    · exact .chunk
    · exact .directory
    · exact .table hi
  · rintro (_ | _ | _ | _ | hi)
    · exact .self
    · exact .task
    · exact .chunk
    · exact .directory
    · exact .table hi

/-- A request that was served in record `i`. -/
theorem AllocState.served {e' : ℕ → ℕ} (h : AllocState k₀ process p t d f k al e)
    (hb : k.Serves size b) (ht : TablesOnly f (k.allocated b size) k₂)
    (hat : ProcessAt k₂ process (p.withRecords al) t d f e') (i : ℕ) :
    AllocState k₀ process p t d f (k₂.put process (.process
      ((p.withRecords al).withAllocation i ⟨blockAddr b, size⟩)))
      (fun j => if j = i then ⟨blockAddr b, size⟩ else al j) e' where
  keeps := (h.keeps.allocated hb.toAnswers).of_heapTable ht.heapTable
  at_process := hat.put rfl
  pointers := h.pointers
  records j hj := by
    show (if j = i then (⟨blockAddr b, size⟩ : ProcessAllocation) else al j).ptr = 0 ∨ _
    split_ifs
    · exact .inr (h.keeps.fresh hb.fresh)
    · exact h.records j hj

/-- One call : its effect, that the state stays as it should, and that no other structure
that was not free in `k₀` changes. -/
theorem AllocState.step (hg : Guarded k₀.table) (h : AllocState k₀ process p t d f k al e)
    (hstep : AllocStep k ⟨process, call, res⟩ k') : ∃ al' e',
      AllocEffect k k' al e call res al' e' ∧ AllocState k₀ process p t d f k' al' e' ∧
      (∀ a, a ≠ 0 → ¬k₀.Fresh a → ¬ProcessPointer process p t d f a → k'.store a = k.store a) ∧
      k'.globals = k.globals := by
  have hf : ∀ a, ProcessPointer process (p.withRecords al) t d f a → ¬k.Fresh a := fun a ha =>
    h.not_fresh (ProcessPointer.withRecords.mp ha)
  cases hstep with
  | @malloc _ _ size _ hrun _ =>
    rcases (processMalloc_rule h.at_process hf False.elim).of_eq hrun with ⟨rfl, rfl, -⟩ |
      ⟨b, hb, ⟨-, rfl, rfl⟩ | ⟨i, k₂, rfl, hi, ht, hat, rfl⟩⟩
    · exact ⟨al, e, .nothing rfl, h, fun _ _ _ _ => rfl, rfl⟩
    · have hfresh := h.keeps.fresh hb.fresh
      refine ⟨al, e, .refused hb rfl,
        ⟨(h.keeps.allocated hb.toAnswers).release hg (.inr hfresh), ?_,
        h.pointers, h.records⟩, fun a ha hfr _ => ?_, rfl⟩
      · exact (h.at_process.allocated hb.fresh hf).release fun ha => hf _ ha hb.fresh
      · have hne : a ≠ blockAddr b := fun he => hfr (he ▸ hfresh)
        rw [Kernel.release_store, if_neg hne, Kernel.allocated_store, if_neg fun hc => hne hc.1]
    · refine ⟨_, _, .served hb hi.lt hi.empty ht.heapTable, h.served hb ht hat i,
        fun a ha hfr hp => ?_, ht.globals⟩
      have hne : a ≠ blockAddr b := fun he => hfr (he ▸ h.keeps.fresh hb.fresh)
      rw [Kernel.put_store, if_neg fun (he : a = process) => hp (he ▸ .self),
        ht.store a fun i hi he => hp (he ▸ .table hi), Kernel.allocated_store,
        if_neg fun hc => hne hc.1]
  | @free _ _ ptr hrun hlt =>
    rcases (processFree_rule (r := False) h.at_process hlt).of_eq hrun with rfl |
      ⟨a, k₂, ⟨hptr, j, hj, rfl, -⟩, ht, hat, rfl⟩
    · exact ⟨al, e, .nothing rfl, h, fun _ _ _ _ => rfl, rfl⟩
    · have hptr' : (al j).ptr = ptr := hptr
      have hor : ptr = 0 ∨ k₀.Fresh ptr := hptr' ▸ h.records j hj
      have hno : ∀ a, ProcessPointer process p t d f a → a ≠ ptr := by
        rintro a ha rfl
        rcases hor with rfl | hfr
        · exact (h.at_process.exists_obj (ProcessPointer.withRecords.mpr ha)).1 rfl
        · exact h.pointers _ ha hfr
      have hput : ProcessAt
          (k₂.put process (.process (processAllocationUnjoin (p.withRecords al) ptr)))
          process (processAllocationUnjoin (p.withRecords al) ptr) t d f _ := hat.put rfl
      refine ⟨_, _, .freed hj hptr' ?_, ⟨?_, hput.release fun ha => ?_, h.pointers, fun i hi => ?_⟩,
        fun a ha hfr hp => ?_, ht.globals⟩
      · have hheap : (k₂.put process
            (.process (processAllocationUnjoin (p.withRecords al) ptr))).heap = k.heap := by
          show (⟨⟨k₂.heapTable, _⟩, _⟩ : Heap) = ⟨⟨k.heapTable, _⟩, _⟩
          rw [ht.heapTable]
        show (heapFree _ ptr).table.entries = (heapFree _ ptr).table.entries
        rw [hheap]
      · have hkeeps : Keeps k₀.table (k₂.put process
          (.process (processAllocationUnjoin (p.withRecords al) ptr))).table :=
          h.keeps.of_heapTable ht.heapTable
        exact hkeeps.release hg hor
      · have ha' : ProcessPointer process p t d f ptr := ProcessPointer.withRecords.mp ha
        exact hno _ ha' rfl
      · show (if _ then (⟨0, 0⟩ : ProcessAllocation) else al i).ptr = 0 ∨ _
        split_ifs
        · exact .inl rfl
        · exact h.records i hi
      · have hne : a ≠ ptr := by
          rintro rfl
          exact hor.elim ha hfr
        rw [Kernel.release_store, if_neg hne, Kernel.put_store, if_neg fun (he : a = process) =>
          hp (he ▸ .self),
          ht.store a fun i hi he => hp (he ▸ .table hi)]

/-- A run of calls by one process. -/
theorem AllocState.run (hg : Guarded k₀.table) (h : AllocState k₀ process p t d f k al e)
    {tr : List (Kernel × AllocEvent × Kernel)} (htr : Trace AllocStep k tr k')
    (hown : ∀ x ∈ tr, x.2.1.process = process) : ∃ al' e',
      AllocState k₀ process p t d f k' al' e' ∧ k'.globals = k.globals := by
  refine (htr.invariant (I := fun s => ∃ al' e', AllocState k₀ process p t d f s al' e' ∧
    s.globals = k.globals) (C := fun _ ev _ => ev.process = process) ⟨al, e, h, rfl⟩ ?_ hown).2
  rintro s ⟨_, call, res⟩ s' hs rfl ⟨al₁, e₁, h₁, hglob₁⟩
  obtain ⟨al₂, e₂, -, h₂, -, hglob₂⟩ := h₁.step hg hs
  exact ⟨al₂, e₂, h₂, hglob₂.trans hglob₁⟩

end State

end Hyperion
