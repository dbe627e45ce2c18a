import Hyperion.AllocationRuns
import Hyperion.ProcessLoad

/-!
# The end of a process

What `process_terminate` does (`Terminated`). The state `k₀` in which all that the process owns
is free fences off the rest : every pointer that is freed is free in `k₀`, and what is taken in
`k₀` stays as it is, up to the `next` pointer of the task before the one that goes.

`task_list_remove` stores through the `prev` pointer of the task it removes, which is not changed
when the task before is freed. `taskListRemove` has a result where there is a task. With
`taskListRemoveStored` the word goes to what lies there by then : to an entry of a directory or of
a page table, or to the bytes of a block that is free. So the end of a process is stated for
either (`processTerminateWith_meets`), under what `Removes` says of it, and the two are the same
where the pointer leads to a task (`taskListRemoveStored_eq`).
-/

namespace Hyperion

open Partial FreeRun

variable {k k' k₀ k₁ k₂ : Kernel} {process slot a : ℕ} {p : Process} {t : Task} {d : ℕ}
  {f e : ℕ → ℕ} {al : ℕ → ProcessAllocation} {r b : Prop} {remove : ℕ → KernelM Unit}

/-! ## The allocations -/

/-- `process_free` always returns. -/
theorem AllocState.free_meets {ptr : ℕ} (hg : Guarded k₀.table)
    (h : AllocState k₀ process p t d f k al e) (hlt : ptr < 4294967296) :
    Meets r (processFree process ptr) k fun _ k' => ∃ al' e',
      AllocState k₀ process p t d f k' al' e' ∧
      (∀ a, a ≠ 0 → ¬k₀.Fresh a → ¬ProcessPointer process p t d f a → k'.store a = k.store a) ∧
      k'.globals = k.globals := by
  have hrule : Meets True (processFree process ptr) k _ := processFree_rule h.at_process hlt
  refine .of_liberal (Meets.self.mono fun _ k' hrun => ?_) fun _ => ?_
  · obtain ⟨al', e', -, hrest⟩ := h.step hg (.free hrun hlt)
    exact ⟨al', e', hrest⟩
  · obtain ⟨u, k', hrun, -⟩ := hrule.exists_result
    exact ⟨u, k', hrun⟩

/-- Recorded pointers are words. -/
theorem AllocState.ptr_lt (h : AllocState k₀ process p t d f k al e) {i : ℕ}
    (hi : i < maxProgramAllocations) : (al i).ptr < 4294967296 := by
  rcases h.records i hi with h0 | hf
  · omega
  · exact hf.lt

/-- The records are freed one by one, by recursion on those that are left. -/
theorem processTerminateAllocationsLoop_meets (hg : Guarded k₀.table) : ∀ (fuel i : ℕ) (k : Kernel)
    (al : ℕ → ProcessAllocation) (e : ℕ → ℕ), i + fuel = maxProgramAllocations →
    AllocState k₀ process p t d f k al e →
    Meets r (processTerminateAllocationsLoop process fuel i) k fun _ k' => ∃ al' e',
      AllocState k₀ process p t d f k' al' e' ∧
      (∀ a, a ≠ 0 → ¬k₀.Fresh a → ¬ProcessPointer process p t d f a → k'.store a = k.store a) ∧
      k'.globals = k.globals
  | 0, _, k, al, e, _, h => Meets.pure_iff.mpr ⟨al, e, h, fun _ _ _ _ => rfl, rfl⟩
  | fuel + 1, i, k, al, e, hi, h => by
    rw [processTerminateAllocationsLoop, Meets.bind_iff,
      Kernel.getProcess_meets h.at_process.ne_zero h.at_process.self]
    refine .bind (h.free_meets hg (h.ptr_lt (i := i) (by omega))) ?_
    rintro _ k₁ ⟨al₁, e₁, h₁, hstore₁, hglob₁⟩
    refine (processTerminateAllocationsLoop_meets hg fuel (i + 1) k₁ al₁ e₁ (by omega) h₁).mono ?_
    rintro _ k₂ ⟨al₂, e₂, h₂, hstore₂, hglob₂⟩
    exact ⟨al₂, e₂, h₂, fun a ha hf hp => (hstore₂ a ha hf hp).trans (hstore₁ a ha hf hp),
      hglob₂.trans hglob₁⟩

/-! ## The data and the stack -/

/-- `k'` is `k` after pointers that are free in `k₀` were freed. -/
structure Frees (k₀ k k' : Kernel) : Prop where
  keeps : Keeps k₀.table k'.table
  store : ∀ a, a ≠ 0 → ¬k₀.Fresh a → k'.store a = k.store a
  globals : k'.globals = k.globals

/-- One more pointer is freed. -/
theorem Frees.release (h : Frees k₀ k k') (hg : Guarded k₀.table) (ha : k₀.Fresh a) :
    Frees k₀ k (k'.release a) where
  keeps := h.keeps.release hg (.inr ha)
  store b hb hf := by
    rw [Kernel.release_store, if_neg fun (he : b = a) => hf (he ▸ ha), h.store b hb hf]
  globals := h.globals

/-- A pointer that leads to a structure of the process in `k` and is not freed. -/
structure OwnData (k₀ : Kernel) (process : ℕ) (p : Process) (t : Task) (d : ℕ) (f : ℕ → ℕ) :
    Prop where
  data : ∀ a, p.DataPointer a → k₀.Fresh a ∧ ¬ProcessPointer process p t d f a
  stack : k₀.Fresh p.stack ∧ ¬ProcessPointer process p t d f p.stack
  space : ∀ a, ProcessPointer process p t d f a → a ≠ process → k₀.Fresh a
  self : ¬k₀.Fresh process

/-- Freeing the data leaves the structures of the process. -/
theorem processFreeProgramData_meets (hg : Guarded k₀.table) (hk : Keeps k₀.table k.table)
    (hown : OwnData k₀ process p t d f) (h : ProcessAt k process (p.withRecords al) t d f e)
    (hr : r → p.Typed) : Meets r (processFreeProgramData process) k fun _ k' =>
      Frees k₀ k k' ∧ ProcessAt k' process (p.withRecords al) t d f e := by
  have hone {a : ℕ} {k₁ : Kernel} (ha : p.DataPointer a) (h₁ : Frees k₀ k k₁)
      (hat : ProcessAt k₁ process (p.withRecords al) t d f e) : Frees k₀ k (k₁.release a) ∧
        ProcessAt (k₁.release a) process (p.withRecords al) t d f e :=
    ⟨h₁.release hg (hown.data a ha).1, hat.release fun hp =>
      (hown.data a ha).2 (ProcessPointer.withRecords.mp hp)⟩
  have h₀ : Frees k₀ k k := ⟨hk, fun _ _ _ => rfl, rfl⟩
  have hft : (p.withRecords al).filetype = p.filetype := rfl
  have hdt : (p.withRecords al).data = p.data := rfl
  have htyped (h' : r) := hr h'
  unfold Process.Typed at htyped
  rw [processFreeProgramData, Meets.bind_iff, Kernel.getProcess_meets h.ne_zero h.self, hft, hdt]
  cases htype : p.filetype <;> cases hdata : p.data <;> simp only [htype, hdata] at htyped ⊢
  · exact Meets.fault_iff.mpr htyped
  · obtain ⟨h₁, hat₁⟩ := hone (.elfMemory hdata) h₀ h
    rw [elfClose, kfree, kfree, Meets.bind_iff, Meets.modify_iff, Meets.modify_iff]
    exact hone (.elfSelf hdata) h₁ hat₁
  · rw [kfree, Meets.modify_iff]
    exact hone (.ptr hdata) h₀ h
  · exact Meets.fault_iff.mpr htyped

/-! ## The task -/

/-- The list pointer of the task before is the only pointer that `setNext` looks at. -/
theorem Kernel.setNext_store_congr {prev next : ℕ} (h : k'.store a = k.store a) :
    (k'.setNext prev next).store a = (k.setNext prev next).store a := by
  by_cases hap : a = prev
  · subst hap
    unfold setNext
    rw [h]
    split
    · rw [Kernel.put_store, Kernel.put_store, if_pos rfl, if_pos rfl]
    · exact h
  · rw [k'.setNext_store hap, k.setNext_store hap, h]

/-- `task_free`, with `remove` for `task_list_remove`. -/
def taskFreeWith (remove : ℕ → KernelM Unit) (task : ℕ) : KernelM Unit := do
  let t ← getTask task
  pagingFree4gb t.pageDirectory
  remove task
  kfree task

/-- `remove` takes the task `t` at `task` out of the list, if the task before it is there or `b`
does not hold. -/
def Removes (r b : Prop) (remove : ℕ → KernelM Unit) (task : ℕ) (t : Task) : Prop :=
  ∀ k : Kernel, k.store task = some (.task t) →
    (b → t.prev ≠ 0 → ∃ q, k.store t.prev = some (.task q)) →
    Meets r (remove task) k fun _ k' => k' = (k.setNext t.prev t.next).unlinked task t

/-- `task_free` when the space and the task are free in `k₀`. -/
theorem taskFreeWith_frees (hremove : Removes r b remove p.task t) (hg : Guarded k₀.table)
    (hk : Keeps k₀.table k.table) (hown : OwnData k₀ process p t d f)
    (h : ProcessAt k process (p.withRecords al) t d f e)
    (hr : b → t.prev ≠ 0 → ¬k₀.Fresh t.prev ∧ ∃ q, k.store t.prev = some (.task q)) :
    Meets r (taskFreeWith remove p.task) k fun _ k' => Keeps k₀.table k'.table ∧
      (∀ a, a ≠ 0 → ¬k₀.Fresh a → k'.store a = (k.setNext t.prev t.next).store a) ∧
      k'.globals = k.globals.unlinked p.task t := by
  have htask : p.task ≠ process := by
    intro he
    have hs := h.self
    rw [← he] at hs
    have ht : k.store p.task = some (.task t) := h.task
    rw [hs] at ht
    cases ht
  have hne {a : ℕ} {o : Obj} (ha : k.store a = some o) (ho : ∀ q, o ≠ .process q) :
      a ≠ process := by
    rintro rfl
    rw [h.self] at ha
    exact ho _ (Option.some.inj ha).symm
  have hne' {a : ℕ} {o : Obj} (ha : k.store a = some o) (ho : ∀ q, o ≠ .task q) : a ≠ p.task := by
    rintro rfl
    have ht : k.store p.task = some (.task t) := h.task
    rw [ht] at ha
    exact ho _ (Option.some.inj ha).symm
  have hspace : Space (fun q => k₀.Fresh q ∧ q ≠ p.task) (fun _ _ => True) k t.pageDirectory := by
    refine ⟨d, f, h.maps.spaceAt ⟨hown.space _ .chunk (hne h.maps.chunk (by simp)), ?_⟩
      ⟨hown.space _ .directory (hne h.maps.directory (by simp)), ?_⟩ fun i hi => ?_⟩
    · exact hne' h.maps.chunk (by simp)
    · exact hne' h.maps.directory (by simp)
    · obtain ⟨g, hg', -⟩ := h.maps.table i hi
      exact ⟨hown.space _ (.table hi) (hne hg' (by simp)), hne' hg' (by simp)⟩
  have ht : k.store p.task = some (.task t) := h.task
  have ht0 : p.task ≠ 0 := h.task_ne
  rw [taskFreeWith, Meets.bind_iff, Kernel.getTask_meets ht0 ht, Meets.bind_iff]
  refine (Meets.of_total (pagingFree4gb_meets hspace (fun q hq => hq.1.ne_zero)
    (I := fun k₁ => Frees k₀ k k₁ ∧ k₁.store p.task = some (.task t)) ?_
      ⟨⟨hk, fun _ _ _ => rfl, rfl⟩, ht⟩)).mono ?_
  · rintro k₁ q ⟨hq, hqt⟩ ⟨h₁, ht₁⟩
    exact ⟨h₁.release hg hq, by rw [Kernel.release_store, if_neg hqt.symm, ht₁]⟩
  · rintro _ k₁ ⟨h₁, ht₁⟩
    rw [Meets.bind_iff]
    refine (hremove k₁ ht₁ fun hr' hp0 => ?_).mono ?_
    · obtain ⟨hnf, q, hq⟩ := hr hr' hp0
      exact ⟨q, (h₁.store _ hp0 hnf).trans hq⟩
    · rintro _ _ rfl
      refine Meets.modify_iff.mpr ⟨?_, fun a ha hf => ?_, ?_⟩
      · have hkeeps : Keeps k₀.table (k₁.setNext t.prev t.next).table := by
          rw [Kernel.setNext_table]
          exact h₁.keeps
        have hunlinked : Keeps k₀.table
          ((k₁.setNext t.prev t.next).unlinked p.task t).table := hkeeps.of_heapTable rfl
        exact hunlinked.release hg (.inr (hown.space _ .task htask))
      · rw [Kernel.release_store, if_neg fun (he : a = p.task) =>
          hf (he ▸ hown.space _ .task htask)]
        show (k₁.setNext t.prev t.next).store a = _
        exact Kernel.setNext_store_congr (h₁.store a ha hf)
      · rw [← h₁.globals, ← k₁.setNext_globals t.prev t.next]
        rfl

/-! ## The table of processes -/

/-- The table of processes is among the globals. -/
theorem Kernel.processes_of_globals {g : Kernel} (h : k.globals = g) : k.processes = g.processes :=
  h ▸ rfl

/-- So is the current process. -/
theorem Kernel.currentProcess_of_globals {g : Kernel} (h : k.globals = g) :
    k.currentProcess = g.currentProcess :=
  h ▸ rfl

/-- `process_switch_to_any` switches to a process of the table. -/
theorem processSwitchToAnyLoop_meets : ∀ fuel i : ℕ, i + fuel = maxProcesses →
    (r → ∃ j < maxProcesses, i ≤ j ∧ k.processes j ≠ 0) →
    Meets r (processSwitchToAnyLoop fuel i) k fun _ k' => ∃ j < maxProcesses, k.processes j ≠ 0 ∧
      k' = { k with currentProcess := k.processes j }
  | 0, i, hi, hr => Meets.fault_iff.mpr fun h => by
    obtain ⟨j, hj, hij, -⟩ := hr h
    omega
  | fuel + 1, i, hi, hr => by
    rw [processSwitchToAnyLoop, Meets.bind_iff, Meets.get_iff]
    refine Meets.ite_iff.mpr ⟨fun h => ?_, fun h => ?_⟩
    · rw [processSwitch, Meets.modify_iff]
      exact ⟨i, by omega, h, rfl⟩
    · refine processSwitchToAnyLoop_meets fuel (i + 1) (by omega) fun h' => ?_
      obtain ⟨j, hj, hij, hne⟩ := hr h'
      have hji : i ≠ j := by
        rintro rfl
        exact h hne
      exact ⟨j, hj, by omega, hne⟩

/-- The process that runs after `process_unlink`. -/
inductive Switched (k : Kernel) (process pid : ℕ) : ℕ → Prop
  | other : k.currentProcess ≠ process → Switched k process pid k.currentProcess
  | any {i : ℕ} : k.currentProcess = process → i < maxProcesses → i ≠ pid → k.processes i ≠ 0 →
      Switched k process pid (k.processes i)

/-- The slot is emptied, and another process runs if it was the current one. -/
theorem processUnlink_meets (h0 : process ≠ 0) (hp : k.store process = some (.process p))
    (hr : r → k.currentProcess = process → ∃ i < maxProcesses, i ≠ p.pid ∧ k.processes i ≠ 0) :
    Meets r (processUnlink process) k fun _ k' => ∃ c, Switched k process p.pid c ∧
      k' = { k with
        processes := fun i => if i = p.pid then 0 else k.processes i
        currentProcess := c } := by
  rw [processUnlink, Meets.bind_iff, Kernel.getProcess_meets h0 hp, Meets.bind_iff,
    Meets.modify_iff,
    Meets.bind_iff, Meets.get_iff]
  have hslot {i : ℕ} (hi : i ≠ p.pid) :
      (if i = p.pid then 0 else k.processes i) = k.processes i := if_neg hi
  refine Meets.ite_iff.mpr ⟨fun hc => ?_, fun hc => Meets.pure_iff.mpr ⟨_, .other hc, rfl⟩⟩
  refine (processSwitchToAnyLoop_meets maxProcesses 0 (Nat.zero_add _) fun h => ?_).mono ?_
  · obtain ⟨i, hi, hip, hne⟩ := hr h hc
    exact ⟨i, hi, Nat.zero_le i, fun h0 => hne ((hslot hip).symm.trans h0)⟩
  · rintro _ _ ⟨j, hj, hne, rfl⟩
    have hjp : j ≠ p.pid := fun hjp => hne (if_pos hjp)
    have hne' : k.processes j ≠ 0 := fun h0 => hne ((hslot hjp).trans h0)
    have hto : Switched k process p.pid (if j = p.pid then 0 else k.processes j) :=
      (hslot hjp).symm ▸ .any hc hj hjp hne'
    exact ⟨_, hto, rfl⟩

/-! ## `process_terminate` -/

/-- `k'` is `k` after the process `p` at `process`, whose task is `t`, has ended. -/
structure Terminated (k₀ k k' : Kernel) (process : ℕ) (p : Process) (t : Task) : Prop where
  keeps : Keeps k₀.table k'.table
  store : ∀ a, a ≠ 0 → ¬k₀.Fresh a → a ≠ process →
    k'.store a = (k.setNext t.prev t.next).store a
  globals : ∃ c, Switched k process p.pid c ∧ k'.globals = { k.globals.unlinked p.task t with
    processes := fun i => if i = p.pid then 0 else k.processes i
    currentProcess := c }

/-- `process_terminate`, with `remove` for `task_list_remove`. -/
def processTerminateWith (remove : ℕ → KernelM Unit) (process : ℕ) : KernelM Int := do
  processTerminateAllocations process
  processFreeProgramData process
  let p ← getProcess process
  kfree p.stack
  taskFreeWith remove p.task
  processUnlink process
  return 0

/-- What the end of a process leaves. -/
theorem processTerminateWith_meets (hremove : Removes r b remove p.task t)
    (hg : Guarded k₀.table) (hbase : Keeps k₀.table k₁.table)
    (h : AllocState k₁ process p t d f k al e) (hown : OwnData k₀ process p t d f)
    (hb : b → t.prev ≠ 0 → ¬k₀.Fresh t.prev ∧ ∃ q, k.store t.prev = some (.task q))
    (hr : r → p.Typed ∧
      (k.currentProcess = process → ∃ i < maxProcesses, i ≠ p.pid ∧ k.processes i ≠ 0)) :
    Meets r (processTerminateWith remove process) k fun res k' => res = 0 ∧
      Terminated k₀ k k' process p t := by
  have hp0 := h.at_process.ne_zero
  have hnot {a : ℕ} (hf : ¬k₀.Fresh a) (hne : a ≠ process) :
      ¬k₁.Fresh a ∧ ¬ProcessPointer process p t d f a :=
    ⟨fun hf' => hf (hbase.fresh hf'), fun ha => hf (hown.space a ha hne)⟩
  rw [processTerminateWith, Meets.bind_iff]
  refine (processTerminateAllocationsLoop_meets (hbase.guarded hg) _ 0 k al e (Nat.zero_add _)
    h).mono ?_
  rintro _ k₂ ⟨al₂, e₂, h₂, hstore₂, hglob₂⟩
  have hsame₂ {a : ℕ} (ha : a ≠ 0) (hf : ¬k₀.Fresh a) (hne : a ≠ process) :
      k₂.store a = k.store a :=
    hstore₂ a ha (hnot hf hne).1 (hnot hf hne).2
  rw [Meets.bind_iff]
  refine (processFreeProgramData_meets hg (hbase.trans h₂.keeps) hown h₂.at_process
    fun h' => (hr h').1).mono ?_
  rintro _ k₃ ⟨h₃, hat₃⟩
  rw [Meets.bind_iff, Kernel.getProcess_meets hp0 hat₃.self, Meets.bind_iff, kfree,
    Meets.modify_iff]
  have h₄ : Frees k₀ k₂ (k₃.release p.stack) := h₃.release hg hown.stack.1
  have hat₄ : ProcessAt (k₃.release p.stack) process (p.withRecords al₂) t d f e₂ :=
    hat₃.release fun ha => hown.stack.2 (ProcessPointer.withRecords.mp ha)
  rw [Meets.bind_iff]
  refine (taskFreeWith_frees hremove hg h₄.keeps hown hat₄ fun h' hprev => ?_).mono ?_
  · obtain ⟨hnf, q, hq⟩ := hb h' hprev
    refine ⟨hnf, q, ?_⟩
    have hne : t.prev ≠ process := by
      intro he
      rw [he, h.at_process.self] at hq
      cases hq
    exact (h₄.store _ hprev hnf).trans ((hsame₂ hprev hnf hne).trans hq)
  · rintro _ k₅ ⟨hkeeps₅, hstore₅, hglob₅⟩
    have hglob : k₅.globals = k.globals.unlinked p.task t := by
      rw [hglob₅, h₄.globals, hglob₂]
    have hcur : k₅.currentProcess = k.currentProcess :=
      (Kernel.currentProcess_of_globals hglob).trans rfl
    have hprocs : k₅.processes = k.processes := (Kernel.processes_of_globals hglob).trans rfl
    have hself₅ : k₅.store process = some (.process (p.withRecords al₂)) := by
      have hs := hat₄.self
      rw [hstore₅ _ hp0 hown.self]
      by_cases hpp : process = t.prev
      · rw [← hpp, Kernel.setNext_of_not_task (by simp [hs]), hs]
      · rw [Kernel.setNext_store _ hpp, hs]
    rw [Meets.bind_iff]
    refine (processUnlink_meets hp0 hself₅ fun h' hc => ?_).mono ?_
    · obtain ⟨i, hi, hip, hne⟩ := (hr h').2 (hcur.symm.trans hc)
      exact ⟨i, hi, hip, by rwa [hprocs]⟩
    · rintro _ _ ⟨c, hc, rfl⟩
      refine Meets.pure_iff.mpr ⟨rfl, hkeeps₅, fun a ha hf hne => ?_, c, ?_, ?_⟩
      · refine (hstore₅ a ha hf).trans (Kernel.setNext_store_congr ?_)
        exact (h₄.store a ha hf).trans (hsame₂ ha hf hne)
      · cases hc with
        | other hne => exact hcur ▸ .other (hcur ▸ hne)
        | @any i he hi hip hne =>
          rw [hprocs] at hne ⊢
          exact .any (hcur.symm.trans he) hi hip hne
      · show ({ k₅.globals with
          processes := fun i => if i = p.pid then 0 else k₅.processes i
          currentProcess := c } : Kernel) = _
        rw [hglob, hprocs]

/-- `task_list_remove` takes it out of the list when the task before it is there. -/
theorem taskListRemove_removes (h0 : p.task ≠ 0) : Removes r r taskListRemove p.task t :=
  fun _ ht hr => taskListRemove_rule h0 ht hr

/-- What the end of a process leaves. -/
theorem processTerminate_meets (hg : Guarded k₀.table) (hbase : Keeps k₀.table k₁.table)
    (h : AllocState k₁ process p t d f k al e) (hown : OwnData k₀ process p t d f)
    (hr : r → p.Typed ∧ (t.prev ≠ 0 → ¬k₀.Fresh t.prev ∧ ∃ q, k.store t.prev = some (.task q)) ∧
      (k.currentProcess = process → ∃ i < maxProcesses, i ≠ p.pid ∧ k.processes i ≠ 0)) :
    Meets r (processTerminate process) k fun res k' => res = 0 ∧
      Terminated k₀ k k' process p t :=
  processTerminateWith_meets (taskListRemove_removes h.at_process.task_ne) hg hbase h hown
    (fun h' => (hr h').2.1) fun h' => ⟨(hr h').1, (hr h').2.2⟩

/-! ## The store through `prev` -/

/-- `task->prev->next = next`, whatever lies at `prev` by then : the word 14 of what is there is
stored to. There is no result if it belongs to the structure of a process or to a block that is
taken for something else. -/
def storeNext (prev next : ℕ) : KernelM Unit := do
  let k ← get
  match k.store prev with
  | some (.task t) => putObj prev (.task { t with next := next })
  | some (.directory f) => putObj prev (.directory fun j => if j = 14 then next else f j)
  | some (.table f) => putObj prev (.table fun j => if j = 14 then next else f j)
  | some (.chunk _) => storeBytes (prev + 56) (wordBytes next)
  | some (.process _) => fault
  | none =>
    if k.heapTable (heapAddressToBlock k.heap prev) = blockFree then
      storeBytes (prev + 56) (wordBytes next)
    else fault

/-- `task_list_remove` with that store. -/
def taskListRemoveStored (task : ℕ) : KernelM Unit := do
  let t ← getTask task
  if t.prev ≠ 0 then storeNext t.prev t.next
  taskListRemoveGlobals task

/-- `process_terminate` with that store. -/
def processTerminateStored : ℕ → KernelM Int := processTerminateWith taskListRemoveStored

/-- A task is stored to as a task. -/
theorem storeNext_task {prev next : ℕ} {q : Task} (h0 : prev ≠ 0)
    (hq : k.store prev = some (.task q)) : storeNext prev next k = some ((), k.setNext prev next) := by
  rw [Kernel.setNext_of_task h0 hq]
  simp only [storeNext, run_bind, run_get, Option.bind_some, hq, putObj, if_neg h0]

/-- Where the task before it is there, `task_list_remove` stores to that. -/
theorem taskListRemoveStored_eq {task : ℕ} (h0 : task ≠ 0) (ht : k.store task = some (.task t))
    (hprev : t.prev ≠ 0 → ∃ q, k.store t.prev = some (.task q)) :
    taskListRemoveStored task k = taskListRemove task k := by
  have hget : getTask task k = some (t, k) := by
    simp [getTask, run_bind, Kernel.getObj_run h0 ht, run_pure]
  rw [taskListRemoveStored, taskListRemove, run_bind, run_bind, hget]
  simp only [Option.bind_some]
  by_cases hp : t.prev = 0
  · rw [if_neg (not_not.mpr hp), if_neg (not_not.mpr hp)]
  · obtain ⟨q, hq⟩ := hprev hp
    have hmodify : modifyTask t.prev (fun q => { q with next := t.next }) k =
        some ((), k.setNext t.prev t.next) := by
      rw [Kernel.setNext_of_task hp hq]
      simp [modifyTask, getTask, run_bind, Kernel.getObj_run hp hq, run_pure, putObj, hp]
    rw [if_pos hp, if_pos hp, run_bind, run_bind, storeNext_task hp hq, hmodify]

/-- So it is taken out of the list. -/
theorem taskListRemoveStored_removes (h0 : p.task ≠ 0) :
    Removes r True taskListRemoveStored p.task t := fun k ht hprev => by
  have hrule : Meets r (taskListRemove p.task) k _ :=
    taskListRemove_rule h0 ht fun _ => hprev trivial
  unfold Meets at hrule ⊢
  rw [taskListRemoveStored_eq h0 ht (hprev trivial)]
  exact hrule

end Hyperion
