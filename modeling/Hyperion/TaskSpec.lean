import Hyperion.AddressSpace
import Hyperion.Task

/-!
# What the task functions do

One lemma for each function of `task.c` that builds a task or takes it out of the list.
-/

namespace Hyperion

open Partial

variable {k k₀ : Kernel} {task process c : ℕ} {r : Prop}

/-- `task_init` finds the entry point of the process. -/
def Process.Startable (p : Process) : Prop :=
  p.filetype = .elf → ∃ file, p.data = .elfFile file ∧ file.elfMemory ≠ 0

/-- What `task_init` leaves in `k'` of the task at `task` : its space is made of blocks that
were free in `k₀`. -/
structure TaskBuilt (k₀ k' : Kernel) (task process : ℕ) (t : Task) (d : ℕ) (f : ℕ → ℕ) : Prop where
  store : k'.store task = some (.task t)
  process : t.process = process
  space : SpaceAt (fun q => k₀.Fresh q ∧ k'.Owns q 1 ∧ q ≠ task)
    (MapsSelf (pagingIsPresent ||| pagingAccessFromAll)) k' t.pageDirectory d f
  inj : ∀ i < 1024, ∀ j < 1024, entryAddress (f i) = entryAddress (f j) → i = j

/-- `task_init` fails only by having no result, and builds the address space of the task
from blocks that were free. -/
theorem taskInit_built (hext : k₀.Extends k) (hf : k₀.Fresh task) (ho : k.Owns task 1)
    (hr : r → (k.Roomy c ∧ c + 1026 ≤ heapTotalBlocks) ∧ process ≠ 0 ∧ ¬k₀.Fresh process ∧
      ∃ q, k.store process = some (.process q) ∧ q.Startable) :
    Meets r (taskInit task process) k fun res k' => res = 0 ∧ k₀.Extends k' ∧
      k'.globals = k.globals ∧ (r → k'.Roomy (c + 1026)) ∧
      k'.freeBlocks + 1026 ≤ k.freeBlocks ∧ k'.Owns task 1 ∧
      ∃ t d f, t.next = 0 ∧ t.prev = 0 ∧ TaskBuilt k₀ k' task process t d f := by
  have htask := ho.ne_zero
  have hput : k₀.Extends (k.put task (.task Task.zero)) := hext.put hf _
  simp only [taskInit, Meets.bind_iff, Meets.ite_iff, Kernel.putObj_meets, if_neg htask]
  refine (pagingNew4gb_built (k := k.put task (.task Task.zero)) (by decide)
    fun h => ⟨(hr h).1.1.of_heapTable rfl, (hr h).1.2⟩).mono ?_
  rintro dir k₁ ⟨hext₁, hglob, hroom, hcount, d, f, hspace, hinj⟩
  have ho₁ : k₁.Owns task 1 := hext₁.owns ho
  have hdir : dir ≠ 0 := hspace.chunk_mem.1.ne_zero
  have hstore : k₁.store task = some (.task Task.zero) := by
    rw [hext₁.store_of_owns ho]
    simp
  have hproc (h : r) (t : Task) : ∃ q, (k₁.put task (.task t)).store process =
      some (.process q) ∧ q.Startable := by
    obtain ⟨-, hp0, hpf, q, hq, hstart⟩ := hr h
    have hne : process ≠ task := fun he => hpf (he ▸ hf)
    refine ⟨q, ?_, hstart⟩
    rw [Kernel.put_store, if_neg hne, hext₁.store process hp0 fun h' => hpf (hput.fresh h'),
      Kernel.put_store, if_neg hne, hq]
  -- the state after the last assignment to the task
  have hdone : ∀ t : Task, t.next = 0 → t.prev = 0 → t.process = process → t.pageDirectory = dir →
      k₀.Extends (k₁.put task (.task t)) ∧ (k₁.put task (.task t)).globals = k.globals ∧
      (r → (k₁.put task (.task t)).Roomy (c + 1026)) ∧
      (k₁.put task (.task t)).freeBlocks + 1026 ≤ k.freeBlocks ∧
      (k₁.put task (.task t)).Owns task 1 ∧ ∃ t' d f, t'.next = 0 ∧ t'.prev = 0 ∧
        TaskBuilt k₀ (k₁.put task (.task t)) task process t' d f := by
    rintro t hn hp hpr rfl
    refine ⟨(hput.trans hext₁).put hf _, hglob, fun h => (hroom h).of_heapTable rfl, hcount, ho₁,
      t, d, f, hn, hp, by simp, hpr, ?_, hinj⟩
    have hne : ∀ q, (k.put task (.task Task.zero)).Fresh q → q ≠ task := fun q hq he =>
      ho.not_fresh (he ▸ hq)
    refine hspace.imp (fun q hq => ⟨hput.fresh hq.1, hq.2, hne q hq.1⟩) (fun _ _ h => h)
      fun q hq => ?_
    rw [Kernel.put_store, if_neg (hne q hq.1)]
  rw [Kernel.modifyTask_meets htask hstore]
  refine ⟨fun h => absurd h hdir, fun _ => ?_⟩
  rw [Kernel.modifyTask_put_meets htask]
  refine Kernel.getProcess_rule (fun h => ?_) fun p hp0 hp => ?_
  · obtain ⟨-, hp0, -⟩ := hr h
    obtain ⟨q, hq, -⟩ := hproc h _
    exact ⟨hp0, q, hq⟩
  · have hstart (h : r) : p.Startable := by
      obtain ⟨q, hq, hs⟩ := hproc h _
      rw [hp] at hq
      cases hq
      exact hs
    refine ⟨fun helf => ?_, fun _ => ?_⟩
    · cases hd : p.data with
      | ptr _ =>
        have hnr : ¬r := fun h => by
          obtain ⟨file, hfile, -⟩ := hstart h helf
          rw [hd] at hfile
          cases hfile
        simpa using hnr
      | elfFile file =>
        simp only [Meets.bind_iff, elfEntry, Meets.get_iff, Meets.ite_iff, Meets.fault_iff,
          Meets.pure_iff]
        refine ⟨fun h0 h => ?_, fun _ => ?_⟩
        · obtain ⟨file', hfile, hmem⟩ := hstart h helf
          rw [hd] at hfile
          cases hfile
          exact hmem h0
        · rw [Kernel.modifyTask_put_meets htask, Kernel.modifyTask_put_meets htask]
          exact ⟨trivial, hdone _ rfl rfl rfl rfl⟩
    · rw [Kernel.modifyTask_put_meets htask, Meets.pure_iff]
      exact ⟨rfl, hdone _ rfl rfl rfl rfl⟩

/-! ## `task_switch` and `task_next` -/

/-- `task_switch` changes the current task and the current directory. -/
theorem taskSwitch_meets : Meets False (taskSwitch task) k fun _ k' =>
    ∃ d, k' = { k with currentTask := task, currentDirectory := d } := by
  simp only [taskSwitch, Meets.bind_iff, Meets.modify_iff]
  refine Kernel.getTask_rule fun t _ _ => ?_
  simp only [pagingSwitch, Meets.bind_iff, Meets.modify_iff]
  exact Kernel.getChunk_rule fun d _ _ => ⟨d, rfl⟩

/-- `task_next` changes nothing that a pointer leads to. -/
theorem taskNext_meets : Meets False taskNext k fun _ k' => k'.store = k.store := by
  simp only [taskNext, Meets.bind_iff, taskGetNext, Meets.get_iff]
  refine Kernel.getTask_rule fun t _ _ => ?_
  simp only [Meets.ite_iff, Meets.pure_iff, Meets.bind_iff, panic, Meets.fault_iff]
  refine ⟨fun _ => ⟨fun _ => not_false, fun _ => taskSwitch_meets.mono ?_⟩,
    fun _ => ⟨fun _ => not_false, fun _ => taskSwitch_meets.mono ?_⟩⟩
  · rintro _ _ ⟨d, rfl⟩
    rfl
  · rintro _ _ ⟨d, rfl⟩
    rfl

/-! ## `task_list_remove` and `task_free` -/

/-- What `task_get_next` answers when the current task is `t`. -/
theorem taskGetNext_meets {t : Task} {Q : ℕ → Kernel → Prop} (hc : k.currentTask ≠ 0)
    (ht : k.store k.currentTask = some (.task t)) :
    Meets r taskGetNext k Q ↔ Q (if t.next = 0 then k.taskHead else t.next) k := by
  simp only [taskGetNext, Meets.bind_iff, Meets.get_iff, Kernel.getTask_meets hc ht, Meets.ite_iff,
    Meets.pure_iff]
  split_ifs with h <;> simp [h]

/-- The global pointers after the task at `task`, which is `t`, has left the list. -/
def Kernel.unlinked (k : Kernel) (task : ℕ) (t : Task) : Kernel :=
  let head := if task = k.taskHead then t.next else k.taskHead
  { k with
    taskHead := head
    taskTail := if task = k.taskTail then t.prev else k.taskTail
    currentTask :=
      if task = k.currentTask then (if t.next = 0 then head else t.next) else k.currentTask }

/-- The state with the `next` pointer of the task at `prev`, if there is one, set to `next`. -/
def Kernel.setNext (k : Kernel) (prev next : ℕ) : Kernel :=
  match prev, k.store prev with
  | prev + 1, some (.task q) => k.put (prev + 1) (.task { q with next := next })
  | _, _ => k

/-- Only the task at `prev` changes. -/
theorem Kernel.setNext_store (k : Kernel) {prev next a : ℕ} (h : a ≠ prev) :
    (k.setNext prev next).store a = k.store a := by
  unfold setNext
  split
  · exact if_neg h
  · rfl

/-- It has another `next` pointer then. -/
theorem Kernel.setNext_store_self {prev next : ℕ} {q : Task} (h : prev ≠ 0)
    (hq : k.store prev = some (.task q)) :
    (k.setNext prev next).store prev = some (.task { q with next := next }) := by
  obtain ⟨p, rfl⟩ := Nat.exists_eq_succ_of_ne_zero h
  unfold setNext
  rw [hq]
  exact k.put_store_self _ _

@[simp] theorem Kernel.setNext_table (k : Kernel) (prev next : ℕ) :
    (k.setNext prev next).table = k.table := by
  unfold setNext
  split <;> rfl

@[simp] theorem Kernel.setNext_globals (k : Kernel) (prev next : ℕ) :
    (k.setNext prev next).globals = k.globals := by
  unfold setNext
  split <;> rfl

/-- The global pointers leave the task. -/
theorem taskListRemoveGlobals_meets {t : Task} (h0 : task ≠ 0)
    (ht : k.store task = some (.task t)) :
    Meets True (taskListRemoveGlobals task) k fun _ k' => k' = k.unlinked task t := by
  simp only [taskListRemoveGlobals, Meets.bind_iff, Meets.modify_iff, Meets.get_iff,
    Kernel.getTask_meets h0 ht, Meets.ite_iff, Meets.pure_iff, Kernel.unlinked]
  refine ⟨fun hc => ?_, fun hc => by simp [hc]⟩
  rw [taskGetNext_meets (t := t) (by simpa [← hc] using h0) (by simpa [← hc] using ht)]
  simp [← hc]

/-- The task after the removed one keeps its `prev` pointer. -/
theorem taskListRemove_meets {t : Task} (h0 : task ≠ 0) (ht : k.store task = some (.task t))
    (hprev : t.prev ≠ 0 → t.prev ≠ task ∧ ∃ q, k.store t.prev = some (.task q)) :
    Meets True (taskListRemove task) k fun _ k' =>
      k' = (k.setNext t.prev t.next).unlinked task t := by
  simp only [taskListRemove, Meets.bind_iff, Meets.ite_iff, Kernel.getTask_meets h0 ht]
  refine ⟨fun hp => ?_, fun hp => ?_⟩
  · obtain ⟨hne, q, hq⟩ := hprev hp
    obtain ⟨p, hp'⟩ := Nat.exists_eq_succ_of_ne_zero hp
    have hset : k.setNext t.prev t.next = k.put t.prev (.task { q with next := t.next }) := by
      unfold Kernel.setNext
      rw [hq, hp']
    rw [Kernel.modifyTask_meets hp hq, ← hset]
    exact taskListRemoveGlobals_meets h0 ((k.setNext_store hne.symm).trans ht)
  · have hset : k.setNext t.prev t.next = k := by
      unfold Kernel.setNext
      rw [not_not.mp hp]
    rw [hset]
    exact taskListRemoveGlobals_meets h0 ht

/-- The state when `task_free` returns, from the state in which the address space of the
task is gone. -/
def Kernel.withoutTask (k : Kernel) (task : ℕ) (t : Task) : Kernel :=
  ((k.setNext t.prev t.next).unlinked task t).release task

/-- The others are left as they were. -/
theorem Kernel.withoutTask_store {t : Task} {a : ℕ} (h : a ≠ task) (h' : a ≠ t.prev) :
    (k.withoutTask task t).store a = k.store a := by
  rw [withoutTask, release_store, if_neg h]
  exact k.setNext_store h'

/-- The one before gets the next one's pointer. -/
theorem Kernel.withoutTask_store_prev {t q : Task} (h : t.prev ≠ task) (h0 : t.prev ≠ 0)
    (hq : k.store t.prev = some (.task q)) :
    (k.withoutTask task t).store t.prev = some (.task { q with next := t.next }) := by
  rw [withoutTask, release_store, if_neg h]
  exact k.setNext_store_self h0 hq

/-- The head moves on if it was the task. -/
theorem Kernel.withoutTask_taskHead (k : Kernel) (task : ℕ) (t : Task) :
    (k.withoutTask task t).taskHead = if task = k.taskHead then t.next else k.taskHead := by
  rw [← taskHead_of_globals (k.setNext_globals t.prev t.next)]
  rfl

/-- The tail moves back if it was the task. -/
theorem Kernel.withoutTask_taskTail (k : Kernel) (task : ℕ) (t : Task) :
    (k.withoutTask task t).taskTail = if task = k.taskTail then t.prev else k.taskTail := by
  rw [← taskTail_of_globals (k.setNext_globals t.prev t.next)]
  rfl

/-- The turn goes to the next task if it was the task's. -/
theorem Kernel.withoutTask_currentTask (k : Kernel) (task : ℕ) (t : Task) :
    (k.withoutTask task t).currentTask = if task = k.currentTask then
      (if t.next = 0 then (k.withoutTask task t).taskHead else t.next) else k.currentTask := by
  rw [← currentTask_of_globals (k.setNext_globals t.prev t.next)]
  rfl

/-- Another single block stays allocated. -/
theorem Kernel.Owns.withoutTask {t : Task} {p n : ℕ} (h : k.Owns p n) (ht : k.Single task)
    (hne : p ≠ task) : (k.withoutTask task t).Owns p n := by
  have hs : ((k.setNext t.prev t.next).unlinked task t).Single task := by
    obtain ⟨b, hb, he, hbyte⟩ := ht
    have htable := k.setNext_table t.prev t.next
    exact ⟨b, hb, he, by rwa [← htable] at hbyte⟩
  exact (h.of_table (k.setNext_table _ _) : Kernel.Owns _ p n).release_single hs hne

/-- `task_free(0)` reads through null. -/
theorem taskFree_null {Q : Unit → Kernel → Prop} : Meets r (taskFree 0) k Q ↔ ¬r := by
  simp [taskFree, getTask]

/-- `task_free` : the address space goes, then the list changes, then the task goes. -/
theorem taskFree_meets {P : ℕ → Prop} {T : ℕ → (ℕ → ℕ) → Prop} {I : Kernel → Prop} {t : Task}
    (h0 : task ≠ 0) (ht : k.store task = some (.task t)) (hs : Space P T k t.pageDirectory)
    (hP : ∀ p, P p → p ≠ 0) (hrel : ∀ k p, P p → I k → I (k.release p)) (hI : I k)
    (hk : ∀ k', I k' → k'.store task = some (.task t) ∧
      (t.prev ≠ 0 → t.prev ≠ task ∧ ∃ q, k'.store t.prev = some (.task q))) :
    Meets True (taskFree task) k fun _ k' =>
      ∃ k₁, I k₁ ∧ k' = k₁.withoutTask task t := by
  rw [taskFree, Meets.bind_iff, Kernel.getTask_meets h0 ht, Meets.bind_iff]
  refine (pagingFree4gb_meets hs hP hrel hI).mono fun _ k₁ hI₁ => ?_
  obtain ⟨ht₁, hprev⟩ := hk k₁ hI₁
  rw [Meets.bind_iff]
  refine (taskListRemove_meets h0 ht₁ hprev).mono ?_
  rintro _ _ rfl
  exact Meets.modify_iff.mpr ⟨k₁, hI₁, rfl⟩

end Hyperion
