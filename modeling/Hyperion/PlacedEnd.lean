import Hyperion.ImageKept
import Hyperion.PlacedLoad
import Hyperion.Termination

/-!
# What the end of a process leaves in the heap

`Housed` is a process that has been loaded to the blocks of `Hyperion.PlacedLoad` and has allocated
nothing since. Its end goes in two parts. The first frees its data, its stack and its space
(`Housed.emptied`), wherever the entries of its directory lead by then. In the second the task is
taken out of the list, which stores to the task before it, and freed, and the slot is emptied
(`Housed.ended`). What lies where the task before it was may be anything that can be stored to :
`Kernel.StoredTo` is a state after that store, and there is one for a task, for the directory of a
space and for a block that is free.

`SpaceFrom` says that a space is in the blocks from one on, as it is after a load. While it is so,
the process frees these blocks with its own (`SpaceFrom.houseTask`), and no others.
-/

namespace Hyperion

open Partial FreeRun

variable {k k' k₁ k₂ : Kernel} {x s y n slot a b m c d prev task : ℕ} {p : Process} {t t' : Task}
  {f f' e : ℕ → ℕ} {B B' : ℕ → ℕ → Prop} {file : ElfFile} {o : Option Obj} {S : ℕ → Prop}

/-! ## The end of a process that has allocated nothing -/

/-- Each of its records is empty, and the null pointer is freed for it. -/
theorem processTerminateAllocationsLoop_run {process : ℕ} (h0 : process ≠ 0) (ht0 : p.task ≠ 0)
    (hempty : ∀ i, p.allocations i = ⟨0, 0⟩) : ∀ (fuel i : ℕ) (k : Kernel), Guarded k.table →
    k.store process = some (.process p) → k.store p.task = some (.task t) →
    ∃ k', processTerminateAllocationsLoop process fuel i k = some ((), k') ∧
      Kernel.Gone (fun _ _ => False) k k'
  | 0, _, k, _, _, _ => ⟨k, rfl, .refl k⟩
  | fuel + 1, i, k, hg, hp, ht => by
    have hgone := Kernel.Gone.release_null hg
    have hget : getProcess process k = some (p, k) := by
      simp [getProcess, run_bind, Kernel.getObj_run h0 hp, run_pure]
    have hno : ¬p.Records 0 := by
      rintro ⟨i, -, hne, -⟩
      exact hne (hempty i)
    have hfound : processGetAllocationByAddr p 0 = some ⟨0, 0⟩ := by
      rw [processGetAllocationByAddr, show maxProgramAllocations = 1023 + 1 from rfl,
        processGetAllocationByAddrLoop, hempty, if_pos rfl]
    obtain ⟨k', hrun, hgone'⟩ := processTerminateAllocationsLoop_run h0 ht0 hempty fuel (i + 1)
      (k.release 0) (hgone.guarded hg) (by rw [Kernel.release_store, if_neg h0, hp])
      (by rw [Kernel.release_store, if_neg ht0, ht])
    refine ⟨k', ?_, (hgone.trans hgone').congr fun _ _ => or_self_iff⟩
    rw [processTerminateAllocationsLoop, run_bind, hget, Option.bind_some, hempty, run_bind,
      processFree_null_run h0 hp ht0 ht hno hfound, Option.bind_some]
    exact hrun

/-- What a process has, in the blocks it was loaded to : its structure at block `x`, the structure
of its file at block `s`, its stack and its file behind block `y` and its task behind these. -/
structure Housed (k : Kernel) (x s y n slot : ℕ) (p : Process) (t : Task) (f : ℕ → ℕ)
    (file : ElfFile) : Prop where
  process : k.store (blockAddr x) = some (.process p)
  task : k.store (blockAddr (y + 7 + n)) = some (.task t)
  chunk : k.store t.pageDirectory = some (.chunk (blockAddr (y + 7 + n + 1)))
  directory : k.store (blockAddr (y + 7 + n + 1)) = some (.directory f)
  pid : p.pid = slot
  empty : ∀ i, p.allocations i = ⟨0, 0⟩
  filetype : p.filetype = .elf
  data_at : p.data = .elfFile file
  self_at : file.self = blockAddr s
  memory_at : file.elfMemory = blockAddr (y + 7)
  stack_at : p.stack = blockAddr (y + 3)
  task_at : p.task = blockAddr (y + 7 + n)
  owner : t.process = blockAddr x
  owns_process : k.Owns (blockAddr x) 3
  owns_self : k.Owns (blockAddr s) 1
  owns_stack : k.Owns (blockAddr (y + 3)) 4
  owns_data : k.Owns (blockAddr (y + 7)) n
  owns_space : ∀ b, y + 7 + n ≤ b → b < y + 7 + n + 1027 → k.Owns (blockAddr b) 1

/-- The allocations that are freed before the task, with those that `S` leads to. -/
def HouseBlock (s y n : ℕ) (S : ℕ → Prop) (b m : ℕ) : Prop :=
  (b = y + 7 ∧ m = n) ∨ (b = s ∧ m = 1) ∨ (b = y + 3 ∧ m = 4) ∨ (m = 1 ∧ S (blockAddr b))

/-- The allocations of a process with its task. -/
def HouseTask (s y n : ℕ) (S : ℕ → Prop) (b m : ℕ) : Prop :=
  HouseBlock s y n S b m ∨ (b = y + 7 + n ∧ m = 1)

/-- The process ends as far as its file and its stack. -/
theorem Housed.dropped (h : Housed k x s y n slot p t f file) (hg : Guarded k.table)
    (hsy : s < y) (hxs : x ≠ s) (hxy : x < y) :
    ∃ k₁, k.Gone (HouseBlock s y n fun _ => False) k₁ ∧
      ∀ remove, processTerminateWith remove (blockAddr x) k = (do
        taskFreeWith remove p.task
        processUnlink (blockAddr x)
        return 0 : KernelM Int) k₁ := by
  have hx0 := blockAddr_pos x
  have ht0 : p.task ≠ 0 := by rw [h.task_at]; exact blockAddr_pos _
  have ht : k.store p.task = some (.task t) := by rw [h.task_at, h.task]
  obtain ⟨kA, eA, hA⟩ := processTerminateAllocationsLoop_run hx0 ht0 h.empty maxProgramAllocations
    0 k hg h.process ht
  have hkeep {b m : ℕ} (ho : k.Owns (blockAddr b) m) : kA.Owns (blockAddr b) m :=
    hA.owns b m ho fun _ => id
  have g₁ := Kernel.Gone.release (hkeep h.owns_data)
  have o₁ := g₁.owns s 1 (hkeep h.owns_self) (by rintro m ⟨he, -⟩; omega)
  have g₂ := Kernel.Gone.release o₁
  have o₂ := g₂.owns (y + 3) 4 (g₁.owns _ 4 (hkeep h.owns_stack) (by rintro m ⟨he, -⟩; omega))
    (by rintro m ⟨he, -⟩; omega)
  have g₃ := Kernel.Gone.release o₂
  set kB := (kA.release (blockAddr (y + 7))).release (blockAddr s) with hkB
  have hB := (hA.trans g₁).trans g₂
  have hstoreA : kA.store (blockAddr x) = some (.process p) := by
    rw [hA.store _ hx0 fun _ _ => False.elim, h.process]
  have hstoreB : kB.store (blockAddr x) = some (.process p) := by
    rw [hB.store _ hx0 fun b m hb => blockAddr_ne ?_, h.process]
    rcases hb with (hb | ⟨rfl, -⟩) | ⟨rfl, -⟩
    · exact hb.elim
    · omega
    · exact hxs
  refine ⟨kB.release (blockAddr (y + 3)), (hB.trans g₃).congr fun b m => ?_, fun remove => ?_⟩
  · unfold HouseBlock
    constructor
    · rintro (((hb | hb) | hb) | hb)
      · exact hb.elim
      · exact .inl hb
      · exact .inr (.inl hb)
      · exact .inr (.inr (.inl hb))
    · rintro (hb | hb | hb | ⟨-, hb⟩)
      · exact .inl (.inl (.inr hb))
      · exact .inl (.inr hb)
      · exact .inr hb
      · exact hb.elim
  · have hget {k₁ : Kernel} (hs : k₁.store (blockAddr x) = some (.process p)) :
        getProcess (blockAddr x) k₁ = some (p, k₁) := by
      simp [getProcess, run_bind, Kernel.getObj_run hx0 hs, run_pure]
    have hdata : processFreeProgramData (blockAddr x) kA = some ((), kB) := by
      rw [processFreeProgramData, run_bind, hget hstoreA, Option.bind_some, h.filetype, h.data_at]
      simp only [elfClose, kfree, run_bind, run_modify, Option.bind_some, h.memory_at, h.self_at]
      rfl
    rw [processTerminateWith, run_bind, processTerminateAllocations, eA, Option.bind_some, run_bind,
      hdata, Option.bind_some, run_bind, hget hstoreB, Option.bind_some, run_bind, kfree,
      run_modify, Option.bind_some, h.stack_at]

/-- The space goes with them, wherever its entries lead. -/
theorem Housed.emptied (h : Housed k x s y n slot p t f file) (hg : Guarded k.table)
    (hsy : s < y) (hxs : x ≠ s) (hxy : x < y) (hn : 1 ≤ n)
    (hspace : ∀ q, SpacePointer t.pageDirectory (blockAddr (y + 7 + n + 1)) f q →
      k.Owns q 1 ∧ q ≠ blockAddr s ∧ q ≠ blockAddr (y + 3) ∧ q ≠ blockAddr (y + 7))
    (hne : ∀ i < 1024, t.pageDirectory ≠ entryAddress (f i) ∧
      blockAddr (y + 7 + n + 1) ≠ entryAddress (f i)) : ∃ k₁,
      k.Gone (HouseBlock s y n (SpacePointer t.pageDirectory (blockAddr (y + 7 + n + 1)) f)) k₁ ∧
      ∀ remove, processTerminateWith remove (blockAddr x) k = (do
        remove p.task
        kfree p.task
        processUnlink (blockAddr x)
        return 0 : KernelM Int) k₁ := by
  have ht0 : p.task ≠ 0 := by rw [h.task_at]; exact blockAddr_pos _
  have ht : k.store p.task = some (.task t) := by rw [h.task_at, h.task]
  have hc0 : t.pageDirectory ≠ 0 := (hspace _ (.inl rfl)).1.ne_zero
  obtain ⟨kC, hC, hrun⟩ := h.dropped hg hsy hxs hxy
  have htaskC : kC.store p.task = some (.task t) := by
    rw [hC.store _ ht0 fun b m hb => ?_, ht]
    rw [h.task_at]
    refine blockAddr_ne ?_
    rcases hb with ⟨rfl, -⟩ | ⟨rfl, -⟩ | ⟨rfl, -⟩ | ⟨-, hb⟩
    · omega
    · omega
    · omega
    · exact hb.elim
  have hpointer {q : ℕ} {o : Obj}
      (hq : SpacePointer t.pageDirectory (blockAddr (y + 7 + n + 1)) f q)
      (ho : k.store q = some o) : kC.store q = some o := by
    obtain ⟨hown, h₁, h₂, h₃⟩ := hspace q hq
    rw [hC.store _ hown.ne_zero fun b m hb => ?_, ho]
    rcases hb with ⟨rfl, -⟩ | ⟨rfl, -⟩ | ⟨rfl, -⟩ | ⟨-, hb⟩
    · exact h₃
    · exact h₁
    · exact h₂
    · exact hb.elim
  have hsingle : ∀ q, SpacePointer t.pageDirectory (blockAddr (y + 7 + n + 1)) f q →
      kC.Single q := fun q hq => by
    obtain ⟨hown, h₁, h₂, h₃⟩ := hspace q hq
    obtain ⟨b, rfl, hheld⟩ := hown
    refine hC.single ⟨b, rfl, hheld⟩ fun m hb => ?_
    rcases hb with ⟨rfl, -⟩ | ⟨rfl, -⟩ | ⟨rfl, -⟩ | ⟨-, hb⟩
    · exact h₃ rfl
    · exact h₁ rfl
    · exact h₂ rfl
    · exact hb.elim
  have hfreed := pagingFree4gb_follows hc0 (blockAddr_pos _) hne (hpointer (.inl rfl) h.chunk)
    (hpointer (.inr (.inl rfl)) h.directory)
  refine ⟨_, (hC.trans (Kernel.withoutSpace_gone hsingle)).congr fun b m => ?_, fun remove => ?_⟩
  · unfold HouseBlock
    constructor
    · rintro ((hb | hb | hb | ⟨-, hb⟩) | hb)
      · exact .inl hb
      · exact .inr (.inl hb)
      · exact .inr (.inr (.inl hb))
      · exact hb.elim
      · exact .inr (.inr (.inr hb))
    · rintro (hb | hb | hb | hb)
      · exact .inl (.inl hb)
      · exact .inl (.inr (.inl hb))
      · exact .inl (.inr (.inr (.inl hb)))
      · exact .inr hb
  · have htask : getTask p.task kC = some (t, kC) := by
      simp [getTask, run_bind, Kernel.getObj_run ht0 htaskC, run_pure]
    rw [hrun, run_bind, taskFreeWith, run_bind, htask, Option.bind_some, run_bind, hfreed,
      Option.bind_some]
    simp only [run_bind, Option.bind_assoc]

/-! ## The store to the task before -/

/-- `k'` is `k` after a store to what lies at `prev`, which is `o` then. -/
structure Kernel.StoredTo (k k' : Kernel) (prev : ℕ) (o : Option Obj) : Prop where
  heapTable : k'.heapTable = k.heapTable
  store : ∀ a, a ≠ prev → k'.store a = k.store a
  at_prev : prev ≠ 0 → k'.store prev = o
  globals : k'.globals = k.globals

/-- There is no task before. -/
theorem Kernel.StoredTo.null {next : ℕ} (h0 : prev = 0) :
    (if prev ≠ 0 then storeNext prev next else pure ()) k = some ((), k) ∧
      k.StoredTo k prev none := by
  rw [if_neg (not_not.mpr h0)]
  exact ⟨rfl, rfl, fun _ _ => rfl, fun h => absurd h0 h, rfl⟩

/-- There is a task. -/
theorem Kernel.StoredTo.of_task {next : ℕ} (h0 : prev ≠ 0) (hs : k.store prev = some (.task t)) :
    ∃ k', (if prev ≠ 0 then storeNext prev next else pure ()) k = some ((), k') ∧
      k.StoredTo k' prev (some (.task { t with next := next })) := by
  rw [if_pos h0, storeNext_task h0 hs]
  refine ⟨_, rfl, ?_, fun a ha => Kernel.setNext_store _ ha, fun _ =>
    Kernel.setNext_store_self h0 hs, Kernel.setNext_globals _ _ _⟩
  rw [Kernel.setNext_of_task h0 hs]
  rfl

/-- A directory with the word `a` 56 bytes into it. -/
def redirect (a : ℕ) (f : ℕ → ℕ) (i : ℕ) : ℕ := if i = 14 then a else f i

/-- There is a directory. -/
theorem Kernel.StoredTo.of_directory {next : ℕ} (h0 : prev ≠ 0)
    (hs : k.store prev = some (.directory f)) :
    ∃ k', (if prev ≠ 0 then storeNext prev next else pure ()) k = some ((), k') ∧
      k.StoredTo k' prev (some (.directory (redirect next f))) := by
  rw [if_pos h0]
  refine ⟨k.put prev (.directory (redirect next f)), ?_, rfl, fun a ha => ?_,
    fun _ => Kernel.put_store_self _ _ _, rfl⟩
  · simp only [storeNext, run_bind, run_get, Option.bind_some, hs, putObj, if_neg h0]
    rfl
  · rw [Kernel.put_store, if_neg ha]

/-- The block is free. -/
theorem Kernel.StoredTo.of_free {next : ℕ} (h0 : prev ≠ 0) (hs : k.store prev = none)
    (hfree : k.heapTable (heapAddressToBlock k.heap prev) = blockFree) :
    ∃ k', (if prev ≠ 0 then storeNext prev next else pure ()) k = some ((), k') ∧
      k.StoredTo k' prev none := by
  rw [if_pos h0]
  refine ⟨k.withBytes (prev + 56) (wordBytes next), ?_, rfl, fun _ _ => rfl, fun _ => hs, rfl⟩
  have hne : ¬(prev + 56 = 0 ∧ wordBytes next ≠ []) := fun h => by omega
  simp only [storeNext, run_bind, run_get, Option.bind_some, hs, if_pos hfree, storeBytes,
    if_neg hne]

/-! ## The rest -/

/-- `k'` is `k` after a process has ended whose allocations are those of `B`. -/
structure Ended (k k' : Kernel) (B : ℕ → ℕ → Prop) (process slot task : ℕ) (t : Task)
    (o : Option Obj) : Prop where
  free : ∀ i < heapTotalBlocks, k'.table.IsFree i ↔
    k.table.IsFree i ∨ ∃ b n, B b n ∧ b ≤ i ∧ i < b + n
  owns : ∀ b n, k.Owns (blockAddr b) n → (∀ m, ¬B b m) → k'.Owns (blockAddr b) n
  store : ∀ a, a ≠ 0 → a ≠ t.prev → (∀ b m, B b m → a ≠ blockAddr b) → k'.store a = k.store a
  at_prev : t.prev ≠ 0 → k'.store t.prev = o
  globals : ∃ c, Switched k process slot c ∧ k'.globals = { k.globals.unlinked task t with
    processes := fun i => if i = slot then 0 else k.processes i
    currentProcess := c }
  guarded : Guarded k.table → Guarded k'.table

/-- The task is taken out of the list when the store to the one before has been made. -/
theorem taskListRemoveStored_run (h0 : task ≠ 0) (h₁ : k₁.store task = some (.task t))
    (h₂ : k₂.store task = some (.task t))
    (hstored : (if t.prev ≠ 0 then storeNext t.prev t.next else pure ()) k₁ = some ((), k₂)) :
    taskListRemoveStored task k₁ = some ((), k₂.unlinked task t) := by
  have hget : getTask task k₁ = some (t, k₁) := by
    simp [getTask, run_bind, Kernel.getObj_run h0 h₁, run_pure]
  have hremove : Meets True (taskListRemoveStored task) k₁ fun _ k' => k' = k₂.unlinked task t := by
    rw [taskListRemoveStored, Meets.bind_iff]
    refine .of_run_eq hget ?_
    by_cases hp0 : t.prev = 0
    · rw [if_neg (not_not.mpr hp0)] at hstored ⊢
      cases hstored
      exact taskListRemoveGlobals_meets h0 h₂
    · rw [if_pos hp0] at hstored ⊢
      rw [Meets.bind_iff]
      exact .of_run_eq hstored (taskListRemoveGlobals_meets h0 h₂)
  obtain ⟨⟨⟩, _, hrun, rfl⟩ := hremove.exists_result
  exact hrun

/-- The rest of the end of a process. -/
theorem Housed.ended (h : Housed k x s y n slot p t f file) {S : ℕ → Prop}
    (hg : k.Gone (HouseBlock s y n S) k₁) (htask : ∀ m, ¬HouseBlock s y n S (y + 7 + n) m)
    (hself : ∀ m, ¬HouseBlock s y n S x m) (hx : x ≠ y + 7 + n)
    (hprev : t.prev ≠ blockAddr (y + 7 + n)) (hprev' : t.prev ≠ blockAddr x)
    (hstored : (if t.prev ≠ 0 then storeNext t.prev t.next else pure ()) k₁ = some ((), k₂))
    (hto : k₁.StoredTo k₂ t.prev o)
    (hcur : k.currentProcess = blockAddr x → ∃ i < maxProcesses, i ≠ slot ∧ k.processes i ≠ 0) :
    ∃ k', (do
        taskListRemoveStored p.task
        kfree p.task
        processUnlink (blockAddr x)
        return 0 : KernelM Int) k₁ = some (0, k') ∧
      Ended k k' (HouseTask s y n S) (blockAddr x) slot p.task t o := by
  have ht0 : p.task ≠ 0 := by rw [h.task_at]; exact blockAddr_pos _
  have hne {a b : ℕ} (hab : ∀ m, ¬HouseBlock s y n S a m) {m : ℕ} (hb : HouseBlock s y n S b m) :
      blockAddr a ≠ blockAddr b := fun he => hab m (blockAddr_inj.mp he ▸ hb)
  have ht₁ : k₁.store p.task = some (.task t) := by
    rw [h.task_at, hg.store _ (blockAddr_pos _) fun b m hb => hne htask hb, h.task]
  have ht₂ : k₂.store p.task = some (.task t) := by
    rw [hto.store _ (h.task_at ▸ hprev.symm), ht₁]
  have hp₂ : k₂.store (blockAddr x) = some (.process p) := by
    rw [hto.store _ hprev'.symm, hg.store _ (blockAddr_pos _) fun b m hb => hne hself hb, h.process]
  have hheap₂ : k₂.table = k₁.table := by simp [Kernel.table, Kernel.heap, hto.heapTable]
  have ho₂ : k₂.Owns (blockAddr (y + 7 + n)) 1 :=
    (hg.owns _ _ (h.owns_space _ le_rfl (by omega)) htask).of_table hheap₂
  set k₃ := k₂.unlinked p.task t with hk₃
  have ho₃ : k₃.Owns (blockAddr (y + 7 + n)) 1 := ho₂.of_table rfl
  have hgone := Kernel.Gone.release ho₃
  set k₄ := k₃.release (blockAddr (y + 7 + n)) with hk₄
  have hp₄ : k₄.store (blockAddr x) = some (.process p) := by
    rw [hgone.store _ (blockAddr_pos _) fun b m hb => ?_]
    · exact hp₂
    · rw [hb.1]
      exact fun he => hx (blockAddr_inj.mp he)
  have hglob₄ : k₄.globals = k.globals.unlinked p.task t := by
    rw [hgone.globals, ← hg.globals, ← hto.globals]
    rfl
  have hcur₄ : k₄.currentProcess = k.currentProcess :=
    (Kernel.currentProcess_of_globals hglob₄).trans rfl
  have hprocs₄ : k₄.processes = k.processes := (Kernel.processes_of_globals hglob₄).trans rfl
  have hunlink : Meets True (processUnlink (blockAddr x)) k₄ _ :=
    processUnlink_meets (blockAddr_pos x) hp₄ fun _ hc => by
      obtain ⟨i, hi, hip, hne⟩ := hcur (hcur₄.symm.trans hc)
      exact ⟨i, hi, h.pid ▸ hip, by rwa [hprocs₄]⟩
  obtain ⟨⟨⟩, k₅, hunlink, c, hc, hk₅⟩ := hunlink.exists_result
  have hheap₅ : k₅.table = k₄.table := by rw [hk₅]; rfl
  have hstore₅ : k₅.store = k₄.store := by rw [hk₅]
  have hfree₃ (i : ℕ) : k₃.table.IsFree i ↔ k₁.table.IsFree i := by
    show k₂.table.IsFree i ↔ _
    rw [hheap₂]
  refine ⟨k₅, ?_, fun i hi => ?_, fun b m ho hno => ?_, fun a ha hap hno => ?_, fun hp0 => ?_,
    ⟨c, ?_, ?_⟩, fun hg₀ => ?_⟩
  · rw [run_bind, taskListRemoveStored_run ht0 ht₁ ht₂ hstored, ← hk₃, Option.bind_some, run_bind,
      kfree, run_modify, Option.bind_some, h.task_at, ← hk₄, run_bind, hunlink]
    rfl
  · rw [hheap₅, hgone.free i hi, hfree₃, hg.free i hi]
    unfold HouseTask
    constructor
    · rintro ((hf | ⟨b, m, hb, hin⟩) | ⟨b, m, hb, hin⟩)
      · exact .inl hf
      · exact .inr ⟨b, m, .inl hb, hin⟩
      · exact .inr ⟨b, m, .inr hb, hin⟩
    · rintro (hf | ⟨b, m, hb | hb, hin⟩)
      · exact .inl (.inl hf)
      · exact .inl (.inr ⟨b, m, hb, hin⟩)
      · exact .inr ⟨b, m, hb, hin⟩
  · have ho₃ : k₃.Owns (blockAddr b) m :=
      ((hg.owns b m ho fun m' hb => hno m' (.inl hb)).of_table hheap₂).of_table rfl
    exact (hgone.owns b m ho₃ fun m' hb => hno m' (.inr hb)).of_table hheap₅
  · rw [hstore₅, hgone.store a ha fun b m hb => hno b m (.inr hb)]
    show k₂.store a = _
    rw [hto.store a hap, hg.store a ha fun b m hb => hno b m (.inl hb)]
  · rw [hstore₅, hgone.store _ hp0 fun b m hb => hb.1 ▸ hprev]
    exact hto.at_prev hp0
  · rw [h.pid] at hc
    cases hc with
    | other hne => exact hcur₄ ▸ .other (hcur₄ ▸ hne)
    | @any i he hi hip hne =>
      rw [hprocs₄] at hne ⊢
      exact .any (hcur₄.symm.trans he) hi hip hne
  · rw [hk₅]
    show ({ k₄.globals with
      processes := fun i => if i = p.pid then 0 else k₄.processes i
      currentProcess := c } : Kernel) = _
    rw [hglob₄, hprocs₄, h.pid]
  · rw [hheap₅]
    refine hgone.guarded ?_
    show Guarded k₂.table
    rw [hheap₂]
    exact hg.guarded hg₀

/-! ## Where its space is -/

/-- The pointers of a space are the 1026 blocks from `w` on. -/
structure SpaceFrom (w c d : ℕ) (f : ℕ → ℕ) : Prop where
  pointers : ∀ q, SpacePointer c d f q ↔ ∃ b, w ≤ b ∧ b < w + 1026 ∧ q = blockAddr b
  ne : ∀ i < 1024, c ≠ entryAddress (f i) ∧ d ≠ entryAddress (f i)

/-- The process that has been loaded. -/
theorem LoadedAt.housed (h : LoadedAt k k' M S x s y n slot p t d f e file) :
    Housed k' x s y n slot p t f file ∧
      SpaceFrom (y + 7 + n + 1) t.pageDirectory (blockAddr (y + 7 + n + 1)) f := by
  have hd := h.directory_at
  subst hd
  have hself : k'.Owns (blockAddr s) 1 := by
    obtain ⟨m, hb⟩ : ∃ m, ElfLoaded.Blocks k k' file m := by
      cases h.data with
      | binary hf _ _ => exact absurd (h.filetype.symm.trans hf) (by decide)
      | elf _ hd hb =>
        rw [h.data_at] at hd
        cases hd
        exact ⟨_, hb⟩
    exact h.self_at ▸ hb.self.owns
  have hspace (b : ℕ) (hb : y + 7 + n ≤ b) (hb' : b < y + 7 + n + 1027) :
      k'.Owns (blockAddr b) 1 := by
    have hp : ProcessPointer (blockAddr x) p t (blockAddr (y + 7 + n + 1)) f (blockAddr b) ∧
        blockAddr b ≠ blockAddr x := by
      by_cases he : b = y + 7 + n
      · subst he
        rw [← h.task_at]
        refine ⟨.task, fun he => ?_⟩
        have ht := h.at_process.task
        rw [he, h.at_process.self] at ht
        cases ht
      · have hq := (h.space_at (blockAddr b)).mpr ⟨b, by omega, by omega, rfl⟩
        rcases hq with hq | hq | ⟨i, hi, hq⟩
        · refine ⟨hq ▸ .chunk, fun he => ?_⟩
          have hc := h.at_process.maps.chunk
          rw [← hq, he, h.at_process.self] at hc
          cases hc
        · refine ⟨hq ▸ .directory, fun he => ?_⟩
          have hc := h.at_process.maps.directory
          rw [← hq, he, h.at_process.self] at hc
          cases hc
        · refine ⟨hq ▸ .table hi, fun he => ?_⟩
          obtain ⟨g, hc, -⟩ := h.at_process.maps.table i hi
          rw [← hq, he, h.at_process.self] at hc
          cases hc
    exact (h.space _ hp.1 hp.2).2
  obtain ⟨_, _, _, _, _, _, hsame⟩ := h.same
  refine ⟨⟨h.at_process.self, by rw [← h.task_at, h.at_process.task], h.at_process.maps.chunk,
    h.at_process.maps.directory, by rw [hsame], h.allocations, h.filetype, h.data_at, h.self_at,
    h.memory_at, h.stack_at, h.task_at, h.owner, h.owns, hself, ?_, h.buffer, hspace⟩,
    fun q => ?_, h.at_process.maps.pointers_ne.2⟩
  · have ho := h.stack.owns
    rw [h.stack_at] at ho
    exact ho
  · rw [h.space_at]

/-- The chunk is one of the blocks of the space. -/
theorem SpaceFrom.owns_chunk (hs : SpaceFrom (y + 7 + n + 1) t.pageDirectory d f)
    (h : Housed k x s y n slot p t f' file) : k.Owns t.pageDirectory 1 := by
  obtain ⟨b, hb, hb', hc⟩ := (hs.pointers t.pageDirectory).mp (.inl rfl)
  exact hc ▸ h.owns_space b (by omega) (by omega)

/-- What a process has stays, but for the pointers of its task and its directory. -/
theorem Housed.frame (h : Housed k x s y n slot p t f file)
    (howns : ∀ b m, k.Owns (blockAddr b) m → (b = x ∨ b = s ∨ b = y + 3 ∨ b = y + 7 ∨
      y + 7 + n ≤ b ∧ b < y + 7 + n + 1027) → k'.Owns (blockAddr b) m)
    (hprocess : k'.store (blockAddr x) = k.store (blockAddr x))
    (hchunk : k'.store t.pageDirectory = k.store t.pageDirectory)
    (htask : k'.store (blockAddr (y + 7 + n)) = some (.task t'))
    (howner : t'.process = t.process) (hdir : t'.pageDirectory = t.pageDirectory)
    (hdirectory : k'.store (blockAddr (y + 7 + n + 1)) = some (.directory f')) :
    Housed k' x s y n slot p t' f' file where
  process := hprocess.trans h.process
  task := htask
  chunk := by rw [hdir, hchunk, h.chunk]
  directory := hdirectory
  pid := h.pid
  empty := h.empty
  filetype := h.filetype
  data_at := h.data_at
  self_at := h.self_at
  memory_at := h.memory_at
  stack_at := h.stack_at
  task_at := h.task_at
  owner := howner.trans h.owner
  owns_process := howns x 3 h.owns_process (.inl rfl)
  owns_self := howns s 1 h.owns_self (.inr (.inl rfl))
  owns_stack := howns _ 4 h.owns_stack (.inr (.inr (.inl rfl)))
  owns_data := howns _ n h.owns_data (.inr (.inr (.inr (.inl rfl))))
  owns_space b hb hb' := howns b 1 (h.owns_space b hb hb') (.inr (.inr (.inr (.inr ⟨hb, hb'⟩))))

/-- Another process is loaded. -/
theorem Housed.extends (h : Housed k x s y n slot p t f file)
    (hs : SpaceFrom (y + 7 + n + 1) t.pageDirectory (blockAddr (y + 7 + n + 1)) f)
    (hext : (k.setNext prev task).Extends k') : Housed k' x s y n slot p
      { t with next := if blockAddr (y + 7 + n) = prev then task else t.next } f file := by
  have howns {a m : ℕ} (ho : k.Owns a m) : (k.setNext prev task).Owns a m := ho.of_table (by simp)
  have hkeep {a m : ℕ} {o : Obj} (ho : k.Owns a m) (hs : k.store a = some o)
      (hno : ∀ t, o ≠ .task t) : k'.store a = k.store a := by
    rw [hext.store_of_owns (howns ho), Kernel.setNext_store_of_not_task hs hno, hs]
  have hdir := h.owns_space (y + 7 + n + 1) (by omega) (by omega)
  refine h.frame (fun b m ho _ => hext.owns (howns ho)) (hkeep h.owns_process h.process (by simp))
    (hkeep (hs.owns_chunk h) h.chunk (by simp)) ?_ rfl rfl
    ((hkeep hdir h.directory (by simp)).trans h.directory)
  rw [hext.store_of_owns (howns (h.owns_space (y + 7 + n) le_rfl (by omega)))]
  split_ifs with hp
  · subst hp
    rw [Kernel.setNext_store_self (blockAddr_pos _) h.task]
  · rw [Kernel.setNext_store _ hp, h.task]

/-- The blocks of a process whose space is where it was built. -/
theorem SpaceFrom.houseTask (hs : SpaceFrom (y + 7 + n + 1) c d f) (i : ℕ) :
    (∃ b m, HouseTask s y n (SpacePointer c d f) b m ∧ b ≤ i ∧ i < b + m) ↔
      i = s ∨ y + 3 ≤ i ∧ i < y + 7 + n + 1027 := by
  constructor
  · rintro ⟨b, m, (⟨rfl, rfl⟩ | ⟨rfl, rfl⟩ | ⟨rfl, rfl⟩ | ⟨rfl, hq⟩) | ⟨rfl, rfl⟩, h₁, h₂⟩
    · omega
    · omega
    · omega
    · obtain ⟨b', h₃, h₄, he⟩ := (hs.pointers _).mp hq
      have := blockAddr_inj.mp he
      omega
    · omega
  · rintro (rfl | ⟨h₁, h₂⟩)
    · exact ⟨i, 1, .inl (.inr (.inl ⟨rfl, rfl⟩)), by omega⟩
    by_cases h₃ : i < y + 7
    · exact ⟨y + 3, 4, .inl (.inr (.inr (.inl ⟨rfl, rfl⟩))), by omega⟩
    by_cases h₄ : i < y + 7 + n
    · exact ⟨y + 7, n, .inl (.inl ⟨rfl, rfl⟩), by omega⟩
    by_cases h₅ : i = y + 7 + n
    · exact ⟨i, 1, .inr ⟨h₅, rfl⟩, by omega⟩
    · have hq := (hs.pointers (blockAddr i)).mpr ⟨i, by omega, by omega, rfl⟩
      exact ⟨i, 1, .inl (.inr (.inr (.inr ⟨rfl, hq⟩))), by omega⟩

/-- None of its blocks is elsewhere. -/
theorem SpaceFrom.not_houseTask (hs : SpaceFrom (y + 7 + n + 1) c d f) (ha : a ≠ s)
    (ha' : a < y + 3 ∨ y + 7 + n + 1027 ≤ a) (m : ℕ) :
    ¬HouseTask s y n (SpacePointer c d f) a m := by
  rintro ((⟨rfl, -⟩ | ⟨rfl, -⟩ | ⟨rfl, -⟩ | ⟨-, hq⟩) | ⟨rfl, -⟩)
  · omega
  · exact ha rfl
  · omega
  · obtain ⟨b, h₃, h₄, he⟩ := (hs.pointers _).mp hq
    have := blockAddr_inj.mp he
    omega
  · omega

/-- The hypothesis on the space of a process that ends. -/
theorem SpaceFrom.hspace (hs : SpaceFrom (y + 7 + n + 1) t.pageDirectory d f)
    (hh : Housed k x s y n slot p t f' file) (hsy : s < y) (hxy : x < y) {q : ℕ}
    (hq : SpacePointer t.pageDirectory d f q) :
    ∃ b, q = blockAddr b ∧ k.Owns q 1 ∧ b ≠ s ∧ b ≠ y + 3 ∧ b ≠ y + 7 ∧ b ≠ x ∧ b ≠ y + 7 + n := by
  obtain ⟨b, h₃, h₄, rfl⟩ := (hs.pointers _).mp hq
  exact ⟨b, rfl, hh.owns_space b (by omega) (by omega), by omega, by omega, by omega, by omega,
    by omega⟩

end Hyperion
