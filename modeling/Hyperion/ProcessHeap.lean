import Hyperion.ProcessMap
import Hyperion.Reclaim

/-!
# The allocations of a process

`process_malloc` takes the blocks, maps them and records them, or leaves the heap, the page
tables and the records as they were (`processMalloc_all_or_nothing`). `process_free` of a pointer
that is not recorded does nothing, except that the null pointer is found in an empty record, and
freed (`processFree_noop_iff`).

With a run of free blocks that is long enough the heap answers with the first one
(`Kernel.kzalloc_hasRun`). The way back is tried in the order of the source : when no record is
empty, or when the pages cannot be mapped, the blocks are freed again, and freeing what was just
allocated restores the table (`Kernel.release_allocated`). `Malloced` and `MallocRefused` are the
two outcomes, each with all that is and all that is not changed.

`process_free` looks for the pointer in the records. A pointer that is not there is not found, but
an empty record has the null pointer, and the null pointer is 4096 blocks below the heap : the byte
there is cleared, and those behind it as far as they have the flag of a next block
(`Kernel.release_null_heapTable`).
-/

namespace Hyperion

open Partial FreeRun

variable {k k' k₁ : Kernel} {process size b n i : ℕ} {p : Process} {t : Task} {d : ℕ}
  {f e : ℕ → ℕ}

/-- A kernel with the process `p`, whose task has a space in which no page is mapped. -/
def Kernel.oneSpaceProcess (p : Process) : Kernel :=
  (Kernel.oneSpace.put 0x901000
    (.task { Task.zero with pageDirectory := 4096, process := 0x900000 })).put 0x900000
      (.process { p with task := 0x901000 })

/-- The addresses of the directory entries of `Kernel.oneSpace`. -/
theorem Kernel.oneSpace_entry {i : ℕ} (hi : i < 1024) :
    entryAddress (12288 + i * 4096) = 12288 + i * 4096 := by
  rw [entryAddress_eq]
  omega

theorem Kernel.oneSpaceProcess_at (p : Process) :
    ProcessAt (Kernel.oneSpaceProcess p) 0x900000 { p with task := 0x901000 }
      { Task.zero with pageDirectory := 4096, process := 0x900000 } 8192
      (fun i => 12288 + i * 4096) fun _ => 0 where
  ne_zero := by decide
  task_ne := show 0x901000 ≠ 0 by decide
  self := Kernel.put_store_self _ _ _
  task := rfl
  maps := by
    refine Kernel.oneSpace_maps.congr fun a ha => ?_
    have hlow : a < 0x900000 := by
      rcases ha with rfl | rfl | ⟨i, hi, rfl⟩
      · decide
      · decide
      · rw [Kernel.oneSpace_entry hi]
        omega
    rw [Kernel.oneSpaceProcess, Kernel.put_store, if_neg (by omega), Kernel.put_store,
      if_neg (by omega)]

/-- The structures of the process are below the heap. -/
theorem Kernel.oneSpaceProcess_outside (p : Process) {a : ℕ}
    (ha : ProcessPointer 0x900000 { p with task := 0x901000 }
      { Task.zero with pageDirectory := 4096, process := 0x900000 } 8192
      (fun i => 12288 + i * 4096) a) (b : ℕ) : a ≠ blockAddr b := by
  have hlow : a < heapAddress := by
    unfold heapAddress
    cases ha with
    | self => decide
    | task =>
      show 0x901000 < 0x01000000
      decide
    | chunk =>
      show 4096 < 0x01000000
      decide
    | directory => decide
    | table hi =>
      rw [Kernel.oneSpace_entry hi]
      omega
  unfold blockAddr
  omega

theorem Kernel.oneSpaceProcess_not_fresh (p : Process) {a : ℕ}
    (ha : ProcessPointer 0x900000 { p with task := 0x901000 }
      { Task.zero with pageDirectory := 4096, process := 0x900000 } 8192
      (fun i => 12288 + i * 4096) a) (k : Kernel) : ¬k.Fresh a := by
  rintro ⟨b, -, he, -⟩
  exact Kernel.oneSpaceProcess_outside p ha b he

/-! ## The heap -/

/-- The blocks that a request of `size` bytes needs. -/
def blocksFor (size : ℕ) : ℕ := (size + 4095) / 4096

/-- While there is a run of free blocks for it, a request is served with the first one. -/
theorem Kernel.kzalloc_hasRun (hpos : 1 ≤ size)
    (hrun : HasRun k.table.IsFree heapTotalBlocks (blocksFor size)) :
    ∃ b, FirstRun k.table.IsFree heapTotalBlocks (blocksFor size) b ∧
      requestBlocks size = blocksFor size ∧ kzalloc size k =
        some (blockAddr b, k.allocated b size) := by
  have hsize : size ≤ 104857600 := by
    obtain ⟨s, hs, -⟩ := hrun
    unfold blocksFor heapTotalBlocks at hs
    omega
  have hblocks : requestBlocks size = blocksFor size := requestBlocks_eq hsize
  have hn : 0 < blocksFor size := by
    unfold blocksFor
    omega
  rcases kzalloc_cases k size with ⟨b, hb, -, hfirst, he⟩ | ⟨b, -, hno, -, -⟩ | ⟨-, hno, -⟩
  · rw [hblocks] at hfirst
    have := blockAddr_lt hb
    exact ⟨b, hfirst, hblocks, by rw [he, if_neg (by omega)]⟩
  · rw [hblocks] at hno
    exact absurd hrun (hno hn)
  · rw [hblocks] at hno
    exact absurd hrun (hno hn)

theorem Kernel.allocated_heapTable (k : Kernel) (b size : ℕ) (j : Int) :
    (k.allocated b size).heapTable j =
      if (b : Int) ≤ j ∧ j < b + requestBlocks size then
        blockByte (requestBlocks size) (j - b).toNat
      else k.heapTable j :=
  heapMarkBlocksTaken_entries k.heap b (requestBlocks size) j

/-- Freeing what was just allocated restores the heap. -/
theorem Kernel.release_allocated (hn : 0 < requestBlocks size)
    (hle : b + requestBlocks size ≤ heapTotalBlocks)
    (hrun : IsRun k.table.IsFree b (requestBlocks size))
    (hsame : k₁.heapTable = (k.allocated b size).heapTable) :
    (k₁.release (blockAddr b)).heapTable = k.heapTable := by
  have hheap : k₁.heap = heapMarkBlocksTaken k.heap b (requestBlocks size) := by
    have htable := (k.allocated_table b size).symm
    unfold Kernel.table at htable
    unfold Kernel.heap
    rw [hsame]
    exact congrArg (Heap.mk · heapAddress) htable.symm
  have hrestore := heapMarkBlocksFree_taken (h := k.heap) hn hle hrun
  rw [← hheap] at hrestore
  have hrel := k₁.release_table (blockAddr b)
  rw [heapAddressToBlock_blockAddr k₁ (by omega), hrestore] at hrel
  exact congrArg HeapTable.entries hrel

/-! ## The records -/

/-- `i` is the first empty record of `p`. -/
structure FirstEmptyRecord (p : Process) (i : ℕ) : Prop where
  lt : i < maxProgramAllocations
  empty : (p.allocations i).ptr = 0
  first : ∀ j < i, (p.allocations j).ptr ≠ 0

theorem processFindFreeAllocationIndexLoop_cases (p : Process) : ∀ fuel i : ℕ,
    (∃ j, i ≤ j ∧ j < i + fuel ∧ (p.allocations j).ptr = 0 ∧
      (∀ j', i ≤ j' → j' < j → (p.allocations j').ptr ≠ 0) ∧
      processFindFreeAllocationIndexLoop p fuel i = j) ∨
    (∀ j, i ≤ j → j < i + fuel → (p.allocations j).ptr ≠ 0) ∧
      processFindFreeAllocationIndexLoop p fuel i = -ENOMEM
  | 0, i => .inr ⟨fun j hj hj' => by omega, rfl⟩
  | fuel + 1, i => by
    rw [processFindFreeAllocationIndexLoop]
    split_ifs with h
    · exact .inl ⟨i, le_rfl, by omega, h, fun j' h1 h2 => by omega, rfl⟩
    · rcases processFindFreeAllocationIndexLoop_cases p fuel (i + 1) with
        ⟨j, hj, hj', h0, hfirst, he⟩ | ⟨hall, he⟩
      · refine .inl ⟨j, by omega, by omega, h0, fun j' h1 h2 => ?_, he⟩
        rcases Nat.eq_or_lt_of_le h1 with rfl | hlt
        · exact h
        · exact hfirst j' hlt h2
      · refine .inr ⟨fun j h1 h2 => ?_, he⟩
        rcases Nat.eq_or_lt_of_le h1 with rfl | hlt
        · exact h
        · exact hall j hlt (by omega)

/-- What `process_find_free_allocation_index` answers. -/
theorem processFindFreeAllocationIndex_cases (p : Process) :
    (∃ i, FirstEmptyRecord p i ∧ processFindFreeAllocationIndex p = i) ∨
    (∀ i < maxProgramAllocations, (p.allocations i).ptr ≠ 0) ∧
      processFindFreeAllocationIndex p = -ENOMEM := by
  rcases processFindFreeAllocationIndexLoop_cases p maxProgramAllocations 0 with
    ⟨i, -, hlt, h0, hfirst, he⟩ | ⟨hall, he⟩
  · exact .inl ⟨i, ⟨by omega, h0, fun j hj => hfirst j (Nat.zero_le j) hj⟩, he⟩
  · exact .inr ⟨fun i hi => hall i (Nat.zero_le i) (by omega), he⟩

/-! ## `process_malloc` -/

/-- The flags of a page that a process may read and write. -/
abbrev userPageFlags : ℕ := pagingIsWriteable ||| pagingIsPresent ||| pagingAccessFromAll

/-- `k'` is `k` after the process was served `size` bytes at block `b`, recorded in the
record `i`. -/
structure Malloced (k k' : Kernel) (process size : ℕ) (p : Process) (t : Task) (d : ℕ)
    (f e : ℕ → ℕ) (b i : ℕ) : Prop where
  heap : ∀ j : Int, k'.heapTable j =
    if (b : Int) ≤ j ∧ j < b + blocksFor size then blockByte (blocksFor size) (j - b).toNat
    else k.heapTable j
  pages : ∃ e', ProcessAt k' process (p.withAllocation i ⟨blockAddr b, size⟩) t d f e' ∧
    (∀ m < blocksFor size,
      e' (blockAddr b / 4096 + m) = (blockAddr b + m * 4096) ||| userPageFlags) ∧
    ∀ n, ¬(blockAddr b / 4096 ≤ n ∧ n < blockAddr b / 4096 + blocksFor size) → e' n = e n
  store : ∀ a, a ≠ process → a ≠ blockAddr b → (∀ i < 1024, a ≠ entryAddress (f i)) →
    k'.store a = k.store a
  mem : ∀ a, k'.mem a = if blockAddr b ≤ a ∧ a < blockAddr b + size then 0 else k.mem a
  globals : k'.globals = k.globals

/-- `k'` is `k` after a request was refused : the heap, the structures and the memory that
were allocated are as they were. -/
structure MallocRefused (k k' : Kernel) : Prop where
  heap : k'.heapTable = k.heapTable
  store : ∀ a, ¬k.Fresh a → k'.store a = k.store a
  mem : ∀ a, (∀ b < heapTotalBlocks, k.table.IsFree b → a < blockAddr b ∨ blockAddr b + 4096 ≤ a) →
    k'.mem a = k.mem a
  globals : k'.globals = k.globals

/-- The end of the range that `process_malloc` maps. -/
theorem pagingAlignAddress_blockAddr (hb : b + blocksFor size ≤ heapTotalBlocks) :
    pagingAlignAddress ((blockAddr b + size) % 4294967296) =
      blockAddr b + blocksFor size * 4096 := by
  unfold heapTotalBlocks blocksFor at hb
  unfold pagingAlignAddress blockAddr heapAddress blocksFor
  split_ifs <;> omega

/-- The pages of a run of blocks. -/
theorem pageAfter_blockAddr (hb : b + n ≤ heapTotalBlocks) {m : ℕ} (hm : m < n) :
    pageAfter (blockAddr b) m = blockAddr b / 4096 + m := by
  unfold heapTotalBlocks at hb
  unfold pageAfter blockAddr heapAddress pageCount
  omega

/-- The state after the blocks are taken, mapped and recorded. -/
theorem Malloced.of_mapped {k₂ : Kernel} (hin : b + blocksFor size ≤ heapTotalBlocks)
    (hblocks : requestBlocks size = blocksFor size) (ht : TablesOnly f (k.allocated b size) k₂)
    (h₂ : ProcessAt k₂ process p t d f (mapTo e (blockAddr b) (blockAddr b)
      (blockAddr b + blocksFor size * 4096) userPageFlags)) :
    Malloced k (k₂.put process (.process (p.withAllocation i ⟨blockAddr b, size⟩))) process size
      p t d f e b i where
  heap j := by
    have hheap : k₂.heapTable j = (k.allocated b size).heapTable j := by rw [ht.heapTable]
    rw [← hblocks, ← Kernel.allocated_heapTable, ← hheap]
    rfl
  pages := by
    have hlt : blockAddr b + blocksFor size * 4096 < 4294967296 := by
      unfold heapTotalBlocks at hin
      unfold blockAddr heapAddress
      omega
    have hmod := blockAddr_mod b
    have hcount : (blockAddr b + blocksFor size * 4096 - blockAddr b) / 4096 = blocksFor size := by
      omega
    refine ⟨_, h₂.put rfl, fun m hm => ?_, fun n hn => ?_⟩
    · rw [← pageAfter_blockAddr hin hm]
      exact mapTo_reached (by omega) hlt ⟨hmod, hmod, by omega, by omega⟩ (by omega)
    · refine mapTo_of_not_reached (by omega) fun m hm he => hn ?_
      rw [hcount] at hm
      rw [pageAfter_blockAddr hin hm] at he
      omega
  store a ha hb hta := by
    rw [Kernel.put_store, if_neg ha, ht.store a hta, Kernel.allocated_store,
      if_neg fun he => hb he.1]
  mem a := by
    show k₂.mem a = _
    rw [ht.mem]
    rfl
  globals := ht.globals

/-- The state after the blocks are taken and freed again. -/
theorem MallocRefused.of_released (hn : 0 < blocksFor size)
    (hfirst : FirstRun k.table.IsFree heapTotalBlocks (blocksFor size) b)
    (hblocks : requestBlocks size = blocksFor size) :
    MallocRefused k ((k.allocated b size).release (blockAddr b)) where
  heap := by
    have hin := hfirst.inside
    have hrun := hfirst.run
    rw [← hblocks] at hn hin hrun
    exact Kernel.release_allocated hn hin hrun rfl
  store a ha := by
    have hne : a ≠ blockAddr b := by
      rintro rfl
      exact ha ⟨b, by have := hfirst.inside; omega, rfl, hfirst.run b le_rfl (by omega)⟩
    rw [Kernel.release_store, if_neg hne, Kernel.allocated_store, if_neg fun he => hne he.1]
  mem a ha := by
    refine if_neg ?_
    rintro ⟨hlo, hhi⟩
    have hin := hfirst.inside
    have hsize : size ≤ blocksFor size * 4096 := by
      unfold blocksFor
      omega
    -- the block that holds the byte is in the run
    have hblock : b ≤ blockOf a ∧ blockOf a < b + blocksFor size := by
      unfold blockOf
      unfold blockAddr at hlo hhi
      omega
    have hout := ha (blockOf a) (by omega) (hfirst.run _ hblock.1 hblock.2)
    unfold blockOf blockAddr at hout
    unfold blockAddr at hlo
    omega
  globals := rfl

/-- `process_malloc` when the heap answers with the first run of blocks. -/
theorem processMalloc_meets (h : ProcessAt k process p t d f e)
    (hf : ∀ a, ProcessPointer process p t d f a → ¬k.Fresh a) (hpos : 1 ≤ size)
    (hfirst : FirstRun k.table.IsFree heapTotalBlocks (blocksFor size) b)
    (hblocks : requestBlocks size = blocksFor size)
    (hrun : kzalloc size k = some (blockAddr b, k.allocated b size)) :
    Meets True (processMalloc process size) k fun res k' =>
      (res = blockAddr b ∧ ∃ i, FirstEmptyRecord p i ∧ Malloced k k' process size p t d f e b i) ∨
      (res = 0 ∧ (∀ i < maxProgramAllocations, (p.allocations i).ptr ≠ 0) ∧ MallocRefused k k' ∧
        ProcessAt k' process p t d f e) := by
  have hn : 0 < blocksFor size := by
    unfold blocksFor
    omega
  have hin := hfirst.inside
  have hfresh : k.Fresh (blockAddr b) := ⟨b, by omega, rfl, hfirst.run b le_rfl (by omega)⟩
  have h₁ : ProcessAt (k.allocated b size) process p t d f e := h.allocated hfresh hf
  have hsize : size ≤ blocksFor size * 4096 := by
    unfold blocksFor
    omega
  have hlt : blockAddr b < 4294967296 := by
    have := blockAddr_lt (b := b) (by omega)
    omega
  rw [processMalloc, Meets.bind_iff]
  refine .of_run_eq hrun ?_
  rw [if_neg (blockAddr_pos b), Meets.bind_iff, Kernel.getProcess_meets h₁.ne_zero h₁.self]
  rcases processFindFreeAllocationIndex_cases p with ⟨i, hi, he⟩ | ⟨hall, he⟩
  · simp only [he, Int.toNat_natCast]
    rw [if_neg (by omega), Meets.bind_iff, Kernel.getTask_meets h₁.task_ne h₁.task]
    rw [pagingAlignAddress_blockAddr hin]
    refine .bind (h₁.mapTo_meets hlt) ?_
    rintro res k₂ ⟨ht, ⟨rfl, -, h₂⟩ | ⟨-, hno, -⟩⟩
    · rw [if_neg (lt_irrefl 0), Meets.bind_iff, Kernel.modifyProcess_meets h₂.ne_zero h₂.self,
        Meets.pure_iff]
      exact .inl ⟨rfl, i, hi, .of_mapped hin hblocks ht h₂⟩
    · exact absurd
        ⟨blockAddr_mod b, blockAddr_mod b, by have := blockAddr_mod b; omega, by omega⟩ hno
  · simp only [he]
    rw [if_pos (by decide), kfree, Meets.bind_iff, Meets.modify_iff, Meets.pure_iff]
    exact .inr ⟨rfl, hall, .of_released hn hfirst hblocks, h₁.release fun ha => hf _ ha hfresh⟩

theorem FirstEmptyRecord.unique {j : ℕ} (hi : FirstEmptyRecord p i) (hj : FirstEmptyRecord p j) :
    i = j := by
  by_contra hne
  rcases Nat.lt_or_gt_of_ne hne with hlt | hlt
  · exact hj.first i hlt hi.empty
  · exact hi.first j hlt hj.empty

/-- While there is a run of free blocks for it, a request is served and recorded in the first
empty record, or, if there is none, refused. -/
theorem processMalloc_all_or_nothing (h : ProcessAt k process p t d f e)
    (hf : ∀ a, ProcessPointer process p t d f a → ¬k.Fresh a) (hpos : 1 ≤ size)
    (hrun : HasRun k.table.IsFree heapTotalBlocks (blocksFor size)) :
    (∀ i, FirstEmptyRecord p i → ∃ b k',
      FirstRun k.table.IsFree heapTotalBlocks (blocksFor size) b ∧
      processMalloc process size k = some (blockAddr b, k') ∧
      Malloced k k' process size p t d f e b i) ∧
    ((∀ i < maxProgramAllocations, (p.allocations i).ptr ≠ 0) → ∃ k',
      processMalloc process size k = some (0, k') ∧ MallocRefused k k' ∧
      ProcessAt k' process p t d f e) := by
  obtain ⟨b, hfirst, hblocks, he⟩ := Kernel.kzalloc_hasRun hpos hrun
  obtain ⟨res, k', hmalloc, hres⟩ := (processMalloc_meets h hf hpos hfirst hblocks he).exists_result
  constructor
  · intro i hi
    rcases hres with ⟨rfl, j, hj, hdone⟩ | ⟨-, hall, -⟩
    · obtain rfl := hi.unique hj
      exact ⟨b, k', hfirst, hmalloc, hdone⟩
    · exact absurd hi.empty (hall i hi.lt)
  · intro hall
    rcases hres with ⟨-, j, hj, -⟩ | ⟨rfl, -, hdone⟩
    · exact absurd hj.empty (hall j hj.lt)
    · exact ⟨k', hmalloc, hdone⟩

/-- A new process gets two blocks. -/
theorem processMalloc_all_or_nothing_first : ∃ b k',
    processMalloc 0x900000 5000 (Kernel.oneSpaceProcess Process.zero) = some (blockAddr b, k') ∧
      (∀ j : Int, k'.heapTable j =
        if (b : Int) ≤ j ∧ j < b + 2 then blockByte 2 (j - b).toNat else blockFree) := by
  have hall := processMalloc_all_or_nothing (Kernel.oneSpaceProcess_at Process.zero)
    (fun a ha => Kernel.oneSpaceProcess_not_fresh Process.zero ha _) (show 1 ≤ 5000 by decide)
    ⟨0, by decide, fun _ _ _ => rfl⟩
  obtain ⟨b, k', -, hrun, hdone⟩ := hall.1 0 ⟨by decide, rfl, fun j hj => by omega⟩
  exact ⟨b, k', hrun, hdone.heap⟩

/-! ## `process_free` -/

/-- `ptr` is recorded : it is in a record that is not empty. -/
def Process.Records (p : Process) (ptr : ℕ) : Prop :=
  ∃ i < maxProgramAllocations, p.allocations i ≠ ⟨0, 0⟩ ∧ (p.allocations i).ptr = ptr

/-- `k'` is `k` as far as a process can see : the heap, the memory and the structures. -/
structure FreeNoop (k k' : Kernel) : Prop where
  heap : k'.heapTable = k.heapTable
  mem : k'.mem = k.mem
  store : ∀ a, a ≠ 0 → k'.store a = k.store a
  globals : k'.globals = k.globals

theorem processGetAllocationByAddrLoop_cases (p : Process) (ptr : ℕ) : ∀ fuel i : ℕ,
    (∃ j, i ≤ j ∧ j < i + fuel ∧ (p.allocations j).ptr = ptr ∧
      processGetAllocationByAddrLoop p ptr fuel i = some (p.allocations j)) ∨
    (∀ j, i ≤ j → j < i + fuel → (p.allocations j).ptr ≠ ptr) ∧
      processGetAllocationByAddrLoop p ptr fuel i = none
  | 0, i => .inr ⟨fun j hj hj' => by omega, rfl⟩
  | fuel + 1, i => by
    rw [processGetAllocationByAddrLoop]
    split_ifs with h
    · exact .inl ⟨i, le_rfl, by omega, h, rfl⟩
    · rcases processGetAllocationByAddrLoop_cases p ptr fuel (i + 1) with
        ⟨j, hj, hj', hptr, he⟩ | ⟨hall, he⟩
      · exact .inl ⟨j, by omega, by omega, hptr, he⟩
      · refine .inr ⟨fun j h1 h2 => ?_, he⟩
        rcases Nat.eq_or_lt_of_le h1 with rfl | hlt
        · exact h
        · exact hall j hlt (by omega)

/-- What `process_get_allocation_by_addr` finds for a pointer that is not recorded : nothing,
or an empty record for the null pointer. -/
theorem processGetAllocationByAddr_of_not_records {ptr : ℕ} (hno : ¬p.Records ptr) :
    ((ptr ≠ 0 ∨ ∀ i < maxProgramAllocations, (p.allocations i).ptr ≠ 0) ∧
      processGetAllocationByAddr p ptr = none) ∨
    (ptr = 0 ∧ (∃ i < maxProgramAllocations, (p.allocations i).ptr = 0) ∧
      processGetAllocationByAddr p ptr = some ⟨0, 0⟩) := by
  rcases processGetAllocationByAddrLoop_cases p ptr maxProgramAllocations 0 with
    ⟨j, -, hj, hptr, he⟩ | ⟨hall, he⟩
  · have hzero : p.allocations j = ⟨0, 0⟩ := by
      by_contra hne
      exact hno ⟨j, by omega, hne, hptr⟩
    have hptr0 : ptr = 0 := by
      rw [← hptr, hzero]
    refine .inr ⟨hptr0, ⟨j, by omega, by rw [hzero]⟩, ?_⟩
    rw [← hzero]
    exact he
  · refine .inl ⟨?_, he⟩
    by_cases h0 : ptr = 0
    · exact .inr fun i hi => h0 ▸ hall i (Nat.zero_le i) (by omega)
    · exact .inl h0

/-- The first byte is cleared. -/
theorem heapMarkBlocksFreeLoop_first (fuel : ℕ) (i : Int) (table : HeapTable) :
    (heapMarkBlocksFreeLoop (fuel + 1) i table).entries i = blockFree := by
  have hset : (table.setEntry i blockFree).entries i = blockFree := if_pos rfl
  rw [heapMarkBlocksFreeLoop]
  split_ifs
  · exact hset
  · rw [heapMarkBlocksFreeLoop_below fuel (i + 1) _ i (by omega), hset]

/-- Clearing stops at a free byte. -/
theorem heapMarkBlocksFreeLoop_of_free {fuel : ℕ} {i : Int} {table : HeapTable}
    (h : table.entries i = blockFree) :
    (heapMarkBlocksFreeLoop (fuel + 1) i table).entries = table.entries := by
  rw [heapMarkBlocksFreeLoop, h, if_pos (by decide)]
  funext j
  rw [HeapTable.setEntry_entries]
  split_ifs with hj
  · rw [hj, h]
  · rfl

/-- Freeing the null pointer clears the byte 4096 below the heap table, so it changes nothing
exactly when that byte is 0. -/
theorem Kernel.release_null_heapTable :
    (k.release 0).heapTable = k.heapTable ↔ k.heapTable (-4096) = blockFree := by
  have hrel : (k.release 0).heapTable =
      (heapMarkBlocksFreeLoop (29695 + 1) (-4096) k.heap.table).entries := by
    have htable := congrArg HeapTable.entries (k.release_table 0)
    rw [heapAddressToBlock_null] at htable
    exact htable
  rw [hrel]
  constructor
  · intro he
    have hfirst := heapMarkBlocksFreeLoop_first 29695 (-4096) k.heap.table
    rw [he] at hfirst
    exact hfirst
  · exact fun h => heapMarkBlocksFreeLoop_of_free h

/-- An empty record is found for the null pointer : no page is mapped, the records stay as they
are, and the null pointer is freed. -/
theorem processFree_null_run (h0 : process ≠ 0) (hp : k.store process = some (.process p))
    (ht0 : p.task ≠ 0) (ht : k.store p.task = some (.task t)) (hno : ¬p.Records 0)
    (hfound : processGetAllocationByAddr p 0 = some ⟨0, 0⟩) :
    processFree process 0 k = some ((), k.release 0) := by
  have hunjoin : processAllocationUnjoin p 0 = p := by
    have hrecords : (processAllocationUnjoin p 0).allocations = p.allocations := by
      funext j
      unfold processAllocationUnjoin
      simp only
      split_ifs with hj
      · by_contra hne
        exact hno ⟨j, hj.1, fun h0 => hne h0.symm, hj.2⟩
      · rfl
    calc processAllocationUnjoin p 0
        = { p with allocations := (processAllocationUnjoin p 0).allocations } := rfl
      _ = p := by rw [hrecords]
  have hput : k.put process (.process p) = k := by
    unfold Kernel.put
    congr 1
    funext a
    split_ifs with ha
    · rw [ha, hp]
    · rfl
  have hmap : pagingMapTo t.pageDirectory 0 0
      (pagingAlignAddress ((0 + 0) % 4294967296)) 0 k = some (0, k) := rfl
  have hrun : Meets True (processFree process 0) k fun _ k' => k' = k.release 0 := by
    rw [processFree, Meets.bind_iff, Kernel.getProcess_meets h0 hp, hfound]
    simp only
    rw [Meets.bind_iff, Kernel.getTask_meets ht0 ht, Meets.bind_iff]
    refine .of_run_eq hmap ?_
    rw [if_neg (lt_irrefl 0), Meets.bind_iff, Kernel.modifyProcess_meets h0 hp,
      hunjoin, hput, kfree, Meets.modify_iff]
  obtain ⟨⟨⟩, _, hfree, rfl⟩ := hrun.exists_result
  exact hfree

/-- `process_free` of a pointer that is not recorded changes nothing exactly when the pointer
is not null, or there is no empty record, or the byte 4096 below the heap table is 0. -/
theorem processFree_noop_iff {ptr : ℕ} (h : ProcessAt k process p t d f e) (hno : ¬p.Records ptr) :
    ∃ k', processFree process ptr k = some ((), k') ∧ (FreeNoop k k' ↔
      ptr ≠ 0 ∨ (∀ i < maxProgramAllocations, (p.allocations i).ptr ≠ 0) ∨
        k.heapTable (-4096) = blockFree) := by
  have hget : getProcess process k = some (p, k) := by
    simp [getProcess, run_bind, Kernel.getObj_run h.ne_zero h.self, run_pure]
  rcases processGetAllocationByAddr_of_not_records hno with ⟨hor, he⟩ | ⟨rfl, ⟨i, hi, hi0⟩, he⟩
  · refine ⟨k, ?_, iff_of_true ⟨rfl, rfl, fun _ _ => rfl, rfl⟩ (hor.imp_right .inl)⟩
    rw [processFree, run_bind, hget, Option.bind_some, he]
    rfl
  · have hfree := processFree_null_run h.ne_zero h.self h.task_ne h.task hno he
    refine ⟨_, hfree, fun hnoop => .inr (.inr (Kernel.release_null_heapTable.mp hnoop.heap)), ?_⟩
    rintro (hne | hall | hzero)
    · exact absurd rfl hne
    · exact absurd hi0 (hall i hi)
    · exact ⟨Kernel.release_null_heapTable.mpr hzero, rfl, fun a ha => if_neg ha, rfl⟩

/-- A new process frees a pointer that it was not given. -/
theorem processFree_noop_foreign : ∃ k',
    processFree 0x900000 0x500000 (Kernel.oneSpaceProcess Process.zero) = some ((), k') ∧
      FreeNoop (Kernel.oneSpaceProcess Process.zero) k' := by
  have hno : ¬Process.Records { Process.zero with task := 0x901000 } 0x500000 := by
    rintro ⟨i, -, hne, -⟩
    exact hne rfl
  obtain ⟨k', hrun, hiff⟩ := processFree_noop_iff (Kernel.oneSpaceProcess_at Process.zero) hno
  exact ⟨k', hrun, hiff.mpr (.inl (by decide))⟩

/-- A new process frees the null pointer, and the byte 4096 below the heap table was not 0. -/
theorem processFree_null_not_noop :
    ¬∀ (k : Kernel) (process ptr : ℕ) (p : Process) (t : Task) (d : ℕ) (f e : ℕ → ℕ),
      ProcessAt k process p t d f e → ¬p.Records ptr →
        ∃ k', processFree process ptr k = some ((), k') ∧ FreeNoop k k' := by
  intro hall
  have hat : ProcessAt { Kernel.oneSpaceProcess Process.zero with heapTable := fun _ => 1 } _ _ _ _
    _ _ := (Kernel.oneSpaceProcess_at Process.zero).congr fun _ _ => rfl
  have hno : ¬Process.Records { Process.zero with task := 0x901000 } 0 := by
    rintro ⟨i, -, hne, -⟩
    exact hne rfl
  obtain ⟨k₁, hrun₁, hiff⟩ := processFree_noop_iff hat hno
  obtain ⟨k₂, hrun₂, hnoop⟩ := hall _ _ _ _ _ _ _ _ hat hno
  obtain ⟨-, rfl⟩ := Prod.mk.inj (Option.some.inj (hrun₁.symm.trans hrun₂))
  rcases hiff.mp hnoop with hne | hfull | hzero
  · exact hne rfl
  · exact hfull 0 (by decide) rfl
  · exact absurd hzero (by decide)

end Hyperion
