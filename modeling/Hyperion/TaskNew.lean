import Hyperion.TaskSpec
import Hyperion.PageMap

/-!
# Creating a task and freeing it again

`task_new` appends the task to the list, so it changes the `next` pointer of the last task
and no other structure (`TaskAdded`). `task_free` of the last task changes that pointer back to
null. What either leaves alone is stated up to the list pointers (`Kernel.bare`).
-/

namespace Hyperion

open Partial

/-- The object without the list pointers of a task. -/
def Obj.bare : Obj → Obj
  | .task t => .task { t with next := 0, prev := 0 }
  | o => o

namespace Kernel

variable {k k₀ : Kernel} {p q n m a : ℕ} {r : Prop}

/-- The state without the list pointers of the tasks. -/
def bare (k : Kernel) : Kernel := { k with store := fun a => (k.store a).map Obj.bare }

@[simp] theorem bare_table (k : Kernel) : k.bare.table = k.table := rfl

/-- A structure is stored without its links. -/
theorem bare_put (k : Kernel) (p : ℕ) (o : Obj) : (k.put p o).bare = k.bare.put p o.bare := by
  unfold bare put
  congr 1
  funext a
  simp only
  split_ifs <;> rfl

/-- A change of the list pointers of a task. -/
theorem bare_put_task {t t' : Task} (hs : k.store p = some (.task t))
    (ht : Obj.bare (.task t') = Obj.bare (.task t)) : (k.put p (.task t')).bare = k.bare := by
  rw [bare_put, ht]
  unfold bare put
  congr 1
  funext a
  simp only
  split_ifs with h
  · rw [h, hs]
    rfl
  · rfl

/-- The links are what `setNext` changes. -/
@[simp] theorem bare_setNext (k : Kernel) (p n : ℕ) : (k.setNext p n).bare = k.bare := by
  unfold setNext
  split
  · rename_i q hq
    exact bare_put_task hq rfl
  · rfl

/-- Growth without the links. -/
theorem Extends.bare (h : k₀.Extends k) : k₀.bare.Extends k.bare :=
  ⟨h.keeps, fun a ha hf => congrArg (Option.map Obj.bare) (h.store a ha hf)⟩

/-- The last task of the list, or null. -/
def listEnd (k : Kernel) : ℕ := if k.taskHead = 0 then 0 else k.taskTail

/-- The state with the global pointers as they are when the task at `task` has been
appended. -/
def withTask (k : Kernel) (task : ℕ) : Kernel := { k with
  taskHead := if k.taskHead = 0 then task else k.taskHead
  taskTail := task
  currentTask := if k.taskHead = 0 then task else k.currentTask }

/-! ## `setNext` -/

/-- A task is stored with the other pointer. -/
theorem setNext_of_task {t : Task} (h0 : p ≠ 0) (hs : k.store p = some (.task t)) :
    k.setNext p n = k.put p (.task { t with next := n }) := by
  obtain ⟨p, rfl⟩ := Nat.exists_eq_succ_of_ne_zero h0
  unfold setNext
  rw [hs]

/-- Where there is no task nothing changes. -/
theorem setNext_of_not_task (h : ∀ t, k.store p ≠ some (.task t)) : k.setNext p n = k := by
  unfold setNext
  split
  · exact absurd ‹_› (h _)
  · rfl

/-- Only tasks change. -/
theorem setNext_store_of_not_task {o : Obj} (ho : k.store a = some o) (h : ∀ t, o ≠ .task t) :
    (k.setNext p n).store a = some o := by
  by_cases hap : a = p
  · rw [← hap, setNext_of_not_task fun t ht => h t (Option.some.inj (ho.symm.trans ht)), ho]
  · rw [k.setNext_store hap, ho]

@[simp] theorem setNext_null (k : Kernel) (n : ℕ) : k.setNext 0 n = k := rfl

/-- The second of two pointers counts. -/
theorem setNext_setNext (k : Kernel) (p n m : ℕ) : (k.setNext p n).setNext p m = k.setNext p m := by
  by_cases h : p ≠ 0 ∧ ∃ t, k.store p = some (.task t)
  · obtain ⟨h0, t, ht⟩ := h
    rw [setNext_of_task h0 ht, setNext_of_task h0 (put_store_self _ _ _), put_put,
      setNext_of_task h0 ht]
  · by_cases h0 : p = 0
    · rw [h0]
      rfl
    · have hno : ∀ t, k.store p ≠ some (.task t) := fun t ht => h ⟨h0, t, ht⟩
      rw [setNext_of_not_task hno]

/-- The `next` pointer set to what it is. -/
theorem setNext_self {t : Task} (hs : k.store p = some (.task t)) : k.setNext p t.next = k := by
  unfold setNext
  split
  · rename_i p q hq
    rw [hs] at hq
    cases hq
    unfold put
    congr 1
    funext a
    split_ifs with h
    · rw [h, hs]
    · rfl
  · rfl

/-- The heap stays. -/
theorem setNext_heapTable (k : Kernel) (p n : ℕ) : (k.setNext p n).heapTable = k.heapTable :=
  congrArg HeapTable.entries (k.setNext_table p n)

/-- The `next` pointer set in an earlier and in a later state. -/
theorem Extends.setNext (h : k₀.Extends k) (p n : ℕ) :
    (k₀.setNext p n).Extends (k.setNext p n) where
  keeps := by
    rw [setNext_table, setNext_table]
    exact h.keeps
  store a ha hf := by
    have hf₀ : ¬k₀.Fresh a := by
      rintro ⟨b, hb, he, hfree⟩
      exact hf ⟨b, hb, he, by rwa [setNext_table]⟩
    by_cases hap : a = p
    · subst hap
      have hs := h.store a ha hf₀
      by_cases ht : ∃ t, k.store a = some (.task t)
      · obtain ⟨t, ht⟩ := ht
        rw [setNext_store_self ha ht, setNext_store_self ha (hs ▸ ht)]
      · have hno : ∀ t, k.store a ≠ some (.task t) := fun t h' => ht ⟨t, h'⟩
        rw [setNext_of_not_task hno, setNext_of_not_task (hs ▸ hno), hs]
    · rw [k.setNext_store hap, k₀.setNext_store hap, h.store a ha hf₀]

/-- A pointer to something else than a task leads to it afterwards. -/
theorem Extends.store_setNext {o : Option Obj} (h : (k₀.setNext p n).Extends k) (ha : a ≠ 0)
    (hf : ¬k₀.Fresh a) (ho : k₀.store a = o) (ht : ∀ t, o ≠ some (.task t)) : k.store a = o := by
  have hf' : ¬(k₀.setNext p n).Fresh a := by
    rintro ⟨b, hb, he, hfree⟩
    exact hf ⟨b, hb, he, by rwa [setNext_table] at hfree⟩
  rw [h.store a ha hf']
  by_cases hap : a = p
  · rw [← hap, setNext_of_not_task (ho ▸ ht), ho]
  · rw [k₀.setNext_store hap, ho]

/-- Setting a list pointer and storing a process commute. -/
theorem put_setNext {q q' : Process} (hq : k.store a = some (.process q)) :
    (k.put a (.process q')).setNext p n = (k.setNext p n).put a (.process q') := by
  by_cases hap : p = a
  · have hno : ∀ t, (k.put a (.process q')).store p ≠ some (.task t) := by simp [hap]
    have hno' : ∀ t, k.store p ≠ some (.task t) := by simp [hap, hq]
    rw [setNext_of_not_task hno, setNext_of_not_task hno']
  · by_cases h : p ≠ 0 ∧ ∃ t, k.store p = some (.task t)
    · obtain ⟨h0, t, ht⟩ := h
      have ht' : (k.put a (.process q')).store p = some (.task t) := by
        rw [put_store, if_neg hap, ht]
      rw [setNext_of_task h0 ht, setNext_of_task h0 ht']
      unfold put
      congr 1
      funext b
      by_cases hba : b = a
      · simp [hba, Ne.symm hap]
      · simp [hba]
    · by_cases h0 : p = 0
      · rw [h0]
        rfl
      · have hno : ∀ t, k.store p ≠ some (.task t) := fun t ht => h ⟨h0, t, ht⟩
        have hno' : ∀ t, (k.put a (.process q')).store p ≠ some (.task t) := by
          rw [put_store, if_neg hap]
          exact hno
        rw [setNext_of_not_task hno, setNext_of_not_task hno']

/-- So do its free blocks. -/
theorem fresh_setNext : (k.setNext p n).Fresh q ↔ k.Fresh q := by
  unfold Fresh
  rw [setNext_table]

/-- A task of which nothing is known. -/
theorem modifyTask_rule {f : Task → Task} {Q : Unit → Kernel → Prop}
    (hr : r → a ≠ 0 ∧ ∃ t, k.store a = some (.task t))
    (hQ : ∀ t, a ≠ 0 → k.store a = some (.task t) → Q () (k.put a (.task (f t)))) :
    Meets r (modifyTask a f) k Q := by
  refine .bind (Q := fun t k' => k' = k ∧ a ≠ 0 ∧ k.store a = some (.task t)) ?_ ?_
  · refine .bind (getObj_rule (Q := fun o k' => k' = k ∧ a ≠ 0 ∧ k.store a = some o) (fun h => ?_)
      fun _ h h' => ⟨rfl, h, h'⟩) fun o k' ⟨hk, ha, ho⟩ => ?_
    · obtain ⟨ha, t, ht⟩ := hr h
      exact ⟨ha, _, ht⟩
    · subst hk
      cases o with
      | task t => exact Meets.pure_iff.mpr ⟨rfl, ha, ho⟩
      | _ =>
        refine Meets.fault_iff.mpr fun h => ?_
        obtain ⟨-, t, ht⟩ := hr h
        rw [ht] at ho
        cases ho
  · rintro t k' ⟨rfl, ha, ht⟩
    rw [putObj_meets, if_neg ha]
    exact hQ t ha ht

end Kernel

/-! ## `task_new` -/

variable {k k₁ : Kernel} {process task c d : ℕ} {t : Task} {f : ℕ → ℕ} {r : Prop}

/-- In `k'` there is a new task at `task`, after the tasks of `k`. -/
structure TaskAdded (k k' : Kernel) (process task : ℕ) (t : Task) (d : ℕ) (f : ℕ → ℕ) : Prop where
  fresh : k.Fresh task
  owns : k'.Owns task 1
  next : k.Fresh k.listEnd ∨ t.next = 0
  prev : t.prev = k.listEnd
  built : TaskBuilt k k' task process t d f
  ext : (k.setNext k.listEnd task).Extends k'
  globals : k'.globals = k.globals.withTask task

/-- There is a task for `task_new` to append to, or none at all. -/
def Kernel.Appendable (k : Kernel) : Prop :=
  k.taskHead ≠ 0 → k.taskTail ≠ 0 ∧ ¬k.Fresh k.taskTail ∧ ∃ q, k.store k.taskTail = some (.task q)

/-- In `k'` there is a new task at `task`, which is in no list. -/
structure TaskAlone (k k' : Kernel) (process task : ℕ) (t : Task) (d : ℕ) (f : ℕ → ℕ) : Prop where
  fresh : k.Fresh task
  owns : k'.Owns task 1
  next : t.next = 0
  prev : t.prev = 0
  built : TaskBuilt k k' task process t d f
  ext : k.Extends k'
  globals : k'.globals = k.globals

/-- The first task of the list. -/
theorem TaskAlone.first (h : TaskAlone k k₁ process task t d f) (h0 : k.taskHead = 0) :
    TaskAdded k { k₁ with taskHead := task, taskTail := task, currentTask := task } process task
      t d f := by
  have hend : k.listEnd = 0 := if_pos h0
  refine ⟨h.fresh, h.owns, .inr h.next, h.prev.trans hend.symm, ?_, ?_, ?_⟩
  · exact ⟨h.built.store, h.built.process,
      h.built.space.imp (fun _ h => h) (fun _ _ h => h) fun _ _ => rfl, h.built.inj⟩
  · rw [hend, Kernel.setNext_null]
    exact h.ext.of_eq rfl rfl
  · have hk : k.globals.taskHead = 0 := h0
    rw [Kernel.withTask, if_pos hk, if_pos hk, ← h.globals]
    rfl

/-- The task goes after the last one, which may have lain where it is. -/
theorem TaskAlone.last {q : Task} (h : TaskAlone k k₁ process task t d f) (h0 : k.taskHead ≠ 0)
    (hq0 : k.taskTail ≠ 0) (hq : k₁.store k.taskTail = some (.task q)) :
    ∃ t', (k₁.setNext k.taskTail task).store task = some (.task t') ∧
      TaskAdded k { (k₁.setNext k.taskTail task).put task
        (.task { t' with prev := k.taskTail }) with
        taskTail := task } process task { t' with prev := k.taskTail } d f := by
  have hend : k.listEnd = k.taskTail := if_neg h0
  obtain ⟨t', ht', hsame, hnext'⟩ : ∃ t', (k₁.setNext k.taskTail task).store task =
      some (.task t') ∧ t' = { t with next := t'.next } ∧ (k.Fresh k.taskTail ∨ t'.next = 0) := by
    by_cases he : task = k.taskTail
    · refine ⟨{ t with next := task }, ?_, rfl, .inl (he ▸ h.fresh)⟩
      rw [← he]
      exact Kernel.setNext_store_self (he ▸ hq0) h.built.store
    · exact ⟨t, (k₁.setNext_store he).trans h.built.store, rfl, .inr h.next⟩
  have hspace := (h.built.space.ne (a := k.taskTail) fun o ho => by
    rw [hq] at ho
    cases ho
    exact .inl ⟨q, rfl⟩)
  have hext : (k.setNext k.listEnd task).Extends ((k₁.setNext k.taskTail task).put task
      (.task { t' with prev := k.taskTail })) := by
    rw [hend]
    exact (h.ext.setNext _ _).put (Kernel.fresh_setNext.mpr h.fresh) _
  refine ⟨t', ht', h.fresh, ?_, ?_, hend.symm, ⟨?_, ?_, ?_, h.built.inj⟩, hext.of_eq rfl rfl, ?_⟩
  · exact h.owns.of_table (k₁.setNext_table _ _)
  · rw [hend]
    exact hnext'
  · exact Kernel.put_store_self _ _ _
  · rw [hsame]
    exact h.built.process
  · rw [hsame]
    refine hspace.imp (fun p hp => ⟨hp.1.1, ?_, hp.1.2.2⟩) (fun _ _ h => h) fun p hp => ?_
    · exact hp.1.2.1.of_table (k₁.setNext_table _ _)
    · exact (if_neg hp.1.2.2).trans (k₁.setNext_store hp.2)
  · have hk : k.globals.taskHead ≠ 0 := h0
    have hset := k₁.setNext_globals k.taskTail task
    rw [Kernel.withTask, if_neg hk, if_neg hk, ← h.globals, ← hset]
    rfl

/-- `task_new` adds a task and takes 1027 blocks. -/
theorem taskNew_meets (hr : r → (k.Roomy c ∧ c + 1027 ≤ heapTotalBlocks) ∧ process ≠ 0 ∧
      ¬k.Fresh process ∧ (∃ q, k.store process = some (.process q) ∧ q.Startable) ∧ k.Appendable) :
    Meets r (taskNew process) k fun task k' => (∃ t d f, TaskAdded k k' process task t d f) ∧
      k'.freeBlocks + 1027 ≤ k.freeBlocks ∧ (r → k'.Roomy (c + 1027)) := by
  simp only [taskNew, Meets.bind_iff, Meets.ite_iff, Meets.set_iff, Meets.get_iff,
    Meets.modify_iff, Meets.pure_iff]
  refine Kernel.kzalloc_one_meets (c := c) (by omega) (by omega)
    (fun h => ⟨(hr h).1.1, by have := (hr h).1.2; omega⟩)
    (fun h => ⟨fun _ => taskFree_null.mpr h, fun hn => absurd rfl hn⟩) fun b hb hf hroom => ?_
  refine ⟨fun h => absurd h (blockAddr_pos b), fun _ => ?_⟩
  have hfresh : k.Fresh (blockAddr b) := ⟨b, hb, rfl, hf⟩
  have hext := (Kernel.Extends.refl k).allocated_one (show 1 ≤ 64 by omega) (by omega) hb hf
  have hcount := Kernel.freeBlocks_allocated_lt hb hf (show 0 < requestBlocks 64 by decide)
  refine (taskInit_built (c := c + 1) hext hfresh
    (Kernel.allocated_owns_one (by omega) (by omega) hb) fun h => ?_).mono ?_
  · obtain ⟨⟨hroomy, hc⟩, h0, hnf, ⟨q, hq, hstart⟩, -⟩ := hr h
    have hne : process ≠ blockAddr b := fun he => hnf (he ▸ hfresh)
    refine ⟨⟨hroom h, by omega⟩, h0, hnf, q, ?_, hstart⟩
    rw [Kernel.allocated_store, if_neg (fun he => hne he.1), hq]
  · rintro res k₂ ⟨rfl, hext₂, hglob, hroom₂, hcount₂, ho, t, d, f, hnext, hprev, hbuilt⟩
    rw [Kernel.allocated_globals] at hglob
    have hhead : k₂.taskHead = k.taskHead := Kernel.taskHead_of_globals hglob
    have htail : k₂.taskTail = k.taskTail := Kernel.taskTail_of_globals hglob
    have halone : TaskAlone k k₂ process (blockAddr b) t d f :=
      ⟨hfresh, ho, hnext, hprev, hbuilt, hext₂, hglob⟩
    have hcount₃ : k₂.freeBlocks + 1027 ≤ k.freeBlocks := by omega
    refine ⟨fun h => absurd rfl h, fun _ => ⟨fun h0 => ?_, fun h0 => ?_⟩⟩
    · exact ⟨⟨t, d, f, halone.first (hhead ▸ h0)⟩, hcount₃, fun h => (hroom₂ h).of_heapTable rfl⟩
    · rw [htail]
      refine Kernel.modifyTask_rule (fun h => ?_) fun q hq0 hq => ?_
      · obtain ⟨-, -, -, -, happ⟩ := hr h
        obtain ⟨h0', hnf, q, hq⟩ := happ (hhead ▸ h0)
        exact ⟨h0', q, (hext₂.store _ h0' hnf).trans hq⟩
      rw [← Kernel.setNext_of_task (n := blockAddr b) hq0 hq]
      obtain ⟨t', ht', hadded⟩ := halone.last (hhead ▸ h0) hq0 hq
      rw [Kernel.modifyTask_meets (blockAddr_pos b) ht']
      have hheap := k₂.setNext_heapTable k.taskTail (blockAddr b)
      refine ⟨⟨_, d, f, hadded⟩, ?_, fun h => ((hroom₂ h).of_heapTable hheap).of_heapTable rfl⟩
      have hcount₄ := Kernel.freeBlocks_congr hheap
      show (k₂.setNext k.taskTail (blockAddr b)).freeBlocks + 1027 ≤ k.freeBlocks
      omega

/-! ## `task_free` -/

/-- `task_list_remove` of a task whose `prev` pointer may lead anywhere. -/
theorem taskListRemove_rule (h0 : task ≠ 0) (ht : k.store task = some (.task t))
    (hr : r → t.prev ≠ 0 → ∃ q, k.store t.prev = some (.task q)) :
    Meets r (taskListRemove task) k fun _ k' => k' = (k.setNext t.prev t.next).unlinked task t := by
  simp only [taskListRemove, Meets.bind_iff, Meets.ite_iff, Kernel.getTask_meets h0 ht]
  refine ⟨fun hp => ?_, fun hp => ?_⟩
  · refine Kernel.modifyTask_rule (fun h => ⟨hp, hr h hp⟩) fun q hq0 hq => ?_
    rw [← Kernel.setNext_of_task hq0 hq]
    refine Meets.of_total (taskListRemoveGlobals_meets h0 ?_)
    by_cases he : task = t.prev
    · rw [← he] at hq ⊢
      rw [ht] at hq
      cases hq
      rw [Kernel.setNext_self ht, ht]
    · exact (k.setNext_store he).trans ht
  · rw [not_not.mp hp, Kernel.setNext_null]
    exact Meets.of_total (taskListRemoveGlobals_meets h0 ht)

/-- `task_free` of the last task, in a state in which only what was allocated since `k` has
changed. -/
theorem taskFree_last {T : ℕ → (ℕ → ℕ) → Prop} (hf : k.Fresh task) (hprev : t.prev = k.listEnd)
    (hext : (k.setNext k.listEnd task).Extends k₁) (ht : k₁.store task = some (.task t))
    (hspace : Space (fun q => k.Fresh q ∧ q ≠ task) T k₁ t.pageDirectory)
    (hr : r → k.listEnd ≠ 0 → ¬k.Fresh k.listEnd ∧ ∃ q, k.store k.listEnd = some (.task q)) :
    Meets r (taskFree task) k₁ fun _ k₃ => (k.setNext k.listEnd t.next).Extends k₃ ∧
      k₃.globals = k₁.globals.unlinked task t := by
  have h0 := hf.ne_zero
  rw [taskFree, Meets.bind_iff, Kernel.getTask_meets h0 ht, Meets.bind_iff]
  refine (Meets.of_total (pagingFree4gb_meets hspace (fun p hp => hp.1.ne_zero)
    (I := fun k₃ => (k.setNext k.listEnd task).Extends k₃ ∧ k₃.globals = k₁.globals ∧
      k₃.store task = some (.task t)) ?_ ⟨hext, rfl, ht⟩)).mono ?_
  · rintro k₃ p ⟨hp, hne⟩ ⟨hext₃, hglob, ht₃⟩
    refine ⟨hext₃.release (Kernel.fresh_setNext.mpr hp), hglob, ?_⟩
    rw [Kernel.release_store, if_neg hne.symm, ht₃]
  · rintro _ k₃ ⟨hext₃, hglob, ht₃⟩
    rw [Meets.bind_iff]
    refine (taskListRemove_rule h0 ht₃ fun h hp0 => ?_).mono ?_
    · rw [hprev] at hp0 ⊢
      obtain ⟨hnf, q, hq⟩ := hr h hp0
      refine ⟨{ q with next := task }, ?_⟩
      rw [hext₃.store _ hp0 fun h' => hnf (Kernel.fresh_setNext.mp h')]
      exact Kernel.setNext_store_self hp0 hq
    · rintro _ _ rfl
      refine Meets.modify_iff.mpr ⟨?_, ?_⟩
      · have hset := hext₃.setNext k.listEnd t.next
        rw [Kernel.setNext_setNext, ← hprev] at hset
        rw [← hprev]
        have hunlinked : (k.setNext t.prev t.next).Extends
            ((k₃.setNext t.prev t.next).unlinked task t) := hset.of_eq rfl rfl
        exact hunlinked.release (Kernel.fresh_setNext.mpr hf)
      · rw [← hglob, ← k₃.setNext_globals t.prev t.next]
        rfl

end Hyperion
