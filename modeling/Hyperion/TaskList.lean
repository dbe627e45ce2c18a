import Hyperion.TaskNew
import Hyperion.Lib.DList
import Hyperion.Lib.Trace

/-!
# The task list over runs

Runs of `task_new`, `task_free`, `task_switch` and `task_next` from the empty list. The
state carries the tasks created and not yet freed, in creation order.
`task_list_remove` does not change the `prev` pointer of the task after the removed one,
so the list is right in every state of a run exactly when every `task_free` frees the
last task of the list (`task_runs_linked_iff_freesLast`).

`TaskListOk` says what right means : the head, the tail and the pointers of the tasks give the tasks
in the order in which they were created, and the current task is one of them. `TaskInv` has besides
which blocks of the heap belong to which task, so that to free one of them takes nothing from the
others (`TaskInv.freed_store`). `TaskInv.new_meets` and `TaskInv.free_last` are the steps that keep
it.

A step that frees any other task leaves a stale `prev` pointer behind (`TaskStep.not_ok`), and the
run is wrong from then on, so that the condition on the steps is exact. The shortest such run
creates two tasks and frees the first (`task_runs_not_all_linked`).
-/

namespace Hyperion

open Partial DList

/-! ## Runs -/

/-- The kernel, and the tasks created and not yet freed. -/
structure TaskState where
  kernel : Kernel
  live : List ℕ

inductive TaskCall
  | new (process : ℕ)
  | free (task : ℕ)
  | switch (task : ℕ)
  | next

/-- A `task_new` that succeeds, a `task_free` of or `task_switch` to a live task, or a
`task_next`. -/
inductive TaskStep : TaskState → TaskCall → TaskState → Prop
  | new {s : TaskState} {process task : ℕ} {k' : Kernel} :
      taskNew process s.kernel = some (task, k') → isErrPtr task = false →
      TaskStep s (.new process) ⟨k', s.live ++ [task]⟩
  | free {s : TaskState} {task : ℕ} {k' : Kernel} :
      task ∈ s.live → taskFree task s.kernel = some ((), k') →
      TaskStep s (.free task) ⟨k', s.live.erase task⟩
  | switch {s : TaskState} {task : ℕ} {k' : Kernel} :
      task ∈ s.live → taskSwitch task s.kernel = some ((), k') →
      TaskStep s (.switch task) ⟨k', s.live⟩
  | next {s : TaskState} {task : ℕ} {k' : Kernel} :
      taskNext s.kernel = some (task, k') → TaskStep s .next ⟨k', s.live⟩

/-- The list pointers of the task at `a`. -/
def taskCell (k : Kernel) (a : ℕ) : Option (ℕ × ℕ) :=
  match k.store a with
  | some (.task t) => some (t.next, t.prev)
  | _ => none

/-- The list is the live tasks in creation order. -/
structure TaskListOk (s : TaskState) : Prop where
  nodup : s.live.Nodup
  linked : Linked (taskCell s.kernel) 0 s.live s.kernel.taskHead
  tail : s.kernel.taskTail = last s.live
  current : s.live ≠ [] → s.kernel.currentTask ∈ s.live
  dispatch : ∀ task k', taskNext s.kernel = some (task, k') → task ∈ s.live

/-- The condition on one step : a freed task is the last one. -/
def FreesLast (s : TaskState) : TaskCall → Prop
  | .free task => s.live.getLast? = some task
  | _ => True

/-! ## The invariant -/

/-- `L` gives the block of each live task and of its address space to the task, and the
list is right. -/
structure TaskInv (L : ℕ → Option ℕ) (s : TaskState) : Prop where
  owns : ∀ p a, L p = some a → s.kernel.Owns p 1
  self : ∀ a ∈ s.live, L a = some a
  task : ∀ a ∈ s.live, ∃ t, s.kernel.store a = some (.task t) ∧
    Space (fun p => L p = some a ∧ p ≠ a) (fun _ _ => True) s.kernel t.pageDirectory
  nodup : s.live.Nodup
  linked : Linked (taskCell s.kernel) 0 s.live s.kernel.taskHead
  tail : s.kernel.taskTail = last s.live
  current : s.live ≠ [] → s.kernel.currentTask ∈ s.live
  empty : s.live = [] → s.kernel.currentTask = 0

theorem taskCell_eq {k : Kernel} {a : ℕ} {t : Task} (h : k.store a = some (.task t)) :
    taskCell k a = some (t.next, t.prev) := by
  rw [taskCell, h]

theorem taskCell_congr {k k' : Kernel} {a : ℕ} (h : k'.store a = k.store a) :
    taskCell k' a = taskCell k a := by
  rw [taskCell, h, taskCell]

namespace TaskInv

variable {L : ℕ → Option ℕ} {s : TaskState}

/-- The pointers of a live task. -/
theorem pointers (hi : TaskInv L s) {l₁ l₂ : List ℕ} {a : ℕ} {t : Task}
    (he : s.live = l₁ ++ a :: l₂) (ht : s.kernel.store a = some (.task t)) :
    a ≠ 0 ∧ t.next = first l₂ ∧ t.prev = last l₁ := by
  obtain ⟨h0, hcell⟩ := hi.linked.cell_eq he
  rw [taskCell_eq ht, Option.some.injEq, Prod.mk.injEq] at hcell
  exact ⟨h0, hcell⟩

/-- `task_next` dispatches a live task. -/
theorem next_meets (hi : TaskInv L s) : Meets False taskNext s.kernel fun task k' =>
    task ∈ s.live ∧ ∃ d, k' = { s.kernel with currentTask := task, currentDirectory := d } := by
  by_cases hl : s.live = []
  · refine .of_run_none ?_ id
    simp [taskNext, taskGetNext, run_bind, run_get, getTask, getObj, hi.empty hl]
  · have hc := hi.current hl
    obtain ⟨t, ht, -⟩ := hi.task _ hc
    obtain ⟨l₁, l₂, he⟩ := List.append_of_mem hc
    obtain ⟨h0, hn, -⟩ := hi.pointers he ht
    have hmem : (if t.next = 0 then s.kernel.taskHead else t.next) ∈ s.live := by
      split_ifs with hz
      · rw [hi.linked.head_eq]
        exact first_mem hl
      · rw [hn] at hz ⊢
        have hne : l₂ ≠ [] := by
          rintro rfl
          exact hz rfl
        rw [he]
        exact List.mem_append_right _ (List.mem_cons_of_mem _ (first_mem hne))
    simp only [taskNext, Meets.bind_iff, taskGetNext_meets h0 ht, Meets.ite_iff, Meets.pure_iff]
    exact ⟨fun hz => absurd hz (hi.linked.ne_zero hmem),
      fun _ => taskSwitch_meets.mono fun _ _ h => ⟨hmem, h⟩⟩

theorem ok (hi : TaskInv L s) : TaskListOk s :=
  ⟨hi.nodup, hi.linked, hi.tail, hi.current, fun _ _ h => (hi.next_meets.of_eq h).1⟩

/-- A change that keeps the heap, the store and the list pointers. -/
theorem congr (hi : TaskInv L s) {k' : Kernel} (ht : k'.heapTable = s.kernel.heapTable)
    (hs : k'.store = s.kernel.store) (hh : k'.taskHead = s.kernel.taskHead)
    (htl : k'.taskTail = s.kernel.taskTail) (hc : s.live ≠ [] → k'.currentTask ∈ s.live)
    (he : s.live = [] → k'.currentTask = 0) : TaskInv L ⟨k', s.live⟩ := by
  have hcell : taskCell k' = taskCell s.kernel := by
    funext a
    exact taskCell_congr (by rw [hs])
  have htable : k'.table = s.kernel.table := by simp [Kernel.table, Kernel.heap, ht]
  refine ⟨fun p a hp => ?_, hi.self, fun a ha => ?_, hi.nodup, ?_, htl.trans hi.tail, hc, he⟩
  · obtain ⟨b, hb, hheld⟩ := hi.owns p a hp
    exact ⟨b, hb, htable ▸ hheld⟩
  · obtain ⟨t, ht', hspace⟩ := hi.task a ha
    refine ⟨t, by rw [hs]; exact ht', ?_⟩
    exact hspace.imp (fun _ h => h) (fun _ _ h => h) fun _ _ => by rw [hs]
  · show Linked (taskCell k') 0 s.live k'.taskHead
    rw [hcell, hh]
    exact hi.linked

section New

variable {k k' : Kernel} {live : List ℕ} {process task c d : ℕ} {t : Task} {f : ℕ → ℕ} {r : Prop}

theorem taskHead_eq_zero_iff (hi : TaskInv L ⟨k, live⟩) : k.taskHead = 0 ↔ live = [] := by
  have hhead : k.taskHead = first live := hi.linked.head_eq
  rw [hhead]
  constructor
  · intro h0
    by_contra hne
    exact hi.linked.ne_zero (first_mem hne) h0
  · rintro rfl
    rfl

theorem listEnd_eq (hi : TaskInv L ⟨k, live⟩) : k.listEnd = last live := by
  unfold Kernel.listEnd
  split_ifs with h0
  · rw [hi.taskHead_eq_zero_iff.mp h0]
    rfl
  · exact hi.tail

theorem appendable (hi : TaskInv L ⟨k, live⟩) : k.Appendable := by
  intro h0
  have htail : k.taskTail = last live := hi.tail
  have hlast := last_mem (mt hi.taskHead_eq_zero_iff.mpr h0)
  have howns := hi.owns _ _ (hi.self _ hlast)
  obtain ⟨q, hq, -⟩ := hi.task _ hlast
  rw [htail]
  exact ⟨howns.ne_zero, howns.not_fresh, q, hq⟩

/-- What the tasks of the list own is kept, but for the pointer to the new task. -/
theorem added_store (hi : TaskInv L ⟨k, live⟩) (h : TaskAdded k k' process task t d f) {p a : ℕ}
    (hp : L p = some a) : k'.store p = (k.setNext (last live) task).store p := by
  have ho := hi.owns p a hp
  rw [← hi.listEnd_eq]
  exact h.ext.store p ho.ne_zero fun hf => ho.not_fresh (Kernel.fresh_setNext.mp hf)

/-- A task of the list, which leads to the new one if it was the last. -/
theorem added_task (hi : TaskInv L ⟨k, live⟩) (h : TaskAdded k k' process task t d f) {a : ℕ}
    (ha : a ∈ live) : ∃ q, k'.store a = some (.task q) ∧
      Space (fun p => L p = some a ∧ p ≠ a) (fun _ _ => True) k' q.pageDirectory := by
  obtain ⟨q, hq, hspace⟩ := hi.task a ha
  have hkept : Space (fun p => L p = some a ∧ p ≠ a) (fun _ _ => True) k' q.pageDirectory := by
    refine hspace.imp (fun _ hp => hp) (fun _ _ h => h) fun p hp => ?_
    rw [hi.added_store h hp.1]
    refine k.setNext_store fun he => hp.2 ?_
    -- the last task is its own
    have hself := hi.self _ (last_mem (List.ne_nil_of_mem ha))
    rw [← he, hp.1] at hself
    exact (Option.some.inj hself).symm
  have hstore := hi.added_store h (hi.self a ha)
  by_cases hal : a = last live
  · refine ⟨{ q with next := task }, ?_, hkept⟩
    rw [hstore, ← hal]
    exact Kernel.setNext_store_self (hi.owns a a (hi.self a ha)).ne_zero hq
  · refine ⟨q, ?_, hkept⟩
    rw [hstore, k.setNext_store hal]
    exact hq

theorem added_linked (hi : TaskInv L ⟨k, live⟩) (h : TaskAdded k k' process task t d f)
    (hnot : task ∉ live) : Linked (taskCell k') 0 (live ++ [task]) k'.taskHead := by
  have hhead : k'.taskHead = first (live ++ [task]) := by
    have hglob : k'.taskHead = if k.taskHead = 0 then task else k.taskHead :=
      congrArg Kernel.taskHead h.globals
    have hfirst : k.taskHead = first live := hi.linked.head_eq
    rw [hglob]
    split_ifs with h0
    · rw [hi.taskHead_eq_zero_iff.mp h0]
      rfl
    · obtain ⟨a, l, rfl⟩ := List.exists_cons_of_ne_nil (mt hi.taskHead_eq_zero_iff.mpr h0)
      exact hfirst
  have hnext : t.next = 0 := by
    refine h.next.resolve_left fun hf => ?_
    rw [hi.listEnd_eq] at hf
    by_cases hne : live = []
    · subst hne
      exact hf.ne_zero rfl
    · exact (hi.owns _ _ (hi.self _ (last_mem hne))).not_fresh hf
  have hprev := h.prev
  rw [hi.listEnd_eq] at hprev
  rw [hhead]
  refine hi.linked.snoc hi.nodup h.fresh.ne_zero (fun c hc hcl => taskCell_congr ?_)
    (fun hne n p hcell => ?_) (by rw [taskCell_eq h.built.store, hnext, hprev])
  · rw [hi.added_store h (hi.self c hc), k.setNext_store hcl]
  · have hlast := last_mem hne
    obtain ⟨q, hq, -⟩ := hi.task _ hlast
    have hq' : k'.store (last live) = some (.task { q with next := task }) := by
      rw [hi.added_store h (hi.self _ hlast)]
      exact Kernel.setNext_store_self (hi.owns _ _ (hi.self _ hlast)).ne_zero hq
    rw [taskCell_eq hq, Option.some.injEq, Prod.mk.injEq] at hcell
    rw [taskCell_eq hq', hcell.2]

/-- The new task is the last of the list. -/
theorem snoc (hi : TaskInv L ⟨k, live⟩) (h : TaskAdded k k' process task t d f) :
    ∃ L', TaskInv L' ⟨k', live ++ [task]⟩ := by
  classical
  have hold {p a : ℕ} (hp : L p = some a) : ¬k.Fresh p := (hi.owns p a hp).not_fresh
  have hnot : task ∉ live := fun hm => hold (hi.self _ hm) h.fresh
  have howns {p a : ℕ} (hp : L p = some a) : k'.Owns p 1 :=
    h.ext.owns ((hi.owns p a hp).of_table (k.setNext_table _ _))
  have hcur : k'.currentTask = if k.taskHead = 0 then task else k.currentTask :=
    congrArg Kernel.currentTask h.globals
  refine ⟨fun p => if k.Fresh p ∧ k'.Owns p 1 then some task else L p, fun p a hp => ?_,
    fun a ha => ?_, fun a ha => ?_, ?_, hi.added_linked h hnot, ?_, fun _ => ?_, by simp⟩
  · split_ifs at hp with hc
    · exact hc.2
    · exact howns hp
  · rcases List.mem_append.mp ha with ha | ha
    · rw [if_neg fun hc => hold (hi.self a ha) hc.1]
      exact hi.self a ha
    · obtain rfl := List.mem_singleton.mp ha
      exact if_pos ⟨h.fresh, h.owns⟩
  · rcases List.mem_append.mp ha with ha | ha
    · obtain ⟨q, hq, hspace⟩ := hi.added_task h ha
      refine ⟨q, hq, hspace.imp (fun p hp => ⟨?_, hp.2⟩) (fun _ _ h => h) fun _ _ => rfl⟩
      rw [if_neg fun hc => hold hp.1 hc.1, hp.1]
    · obtain rfl := List.mem_singleton.mp ha
      refine ⟨t, h.built.store, d, f, h.built.space.imp (fun p hp => ⟨?_, hp.2.2⟩)
        (fun _ _ _ => trivial) fun _ _ => rfl⟩
      exact if_pos ⟨hp.1, hp.2.1⟩
  · exact hi.nodup.append (List.nodup_singleton task) (List.disjoint_singleton.mpr hnot)
  · rw [last_append_singleton]
    exact congrArg Kernel.taskTail h.globals
  · show k'.currentTask ∈ live ++ [task]
    rw [hcur]
    split_ifs with h0
    · simp
    · exact List.mem_append_left _ (hi.current (mt hi.taskHead_eq_zero_iff.mpr h0))

/-- `task_new` appends the new task. In a state with room it succeeds for a raw binary. -/
theorem new_meets (hi : TaskInv L ⟨k, live⟩)
    (hr : r → (k.Roomy c ∧ c + 1027 ≤ heapTotalBlocks) ∧ process ≠ 0 ∧
      ¬k.Fresh process ∧ ∃ q, k.store process = some (.process q) ∧ q.filetype = .binary) :
    Meets r (taskNew process) k fun task k' =>
      (∃ L', TaskInv L' ⟨k', live ++ [task]⟩) ∧ isErrPtr task = false ∧
      (r → k'.Roomy (c + 1027) ∧ ¬k'.Fresh process ∧ k'.store process = k.store process) := by
  refine (taskNew_meets (c := c) fun h => ?_).mono ?_
  · obtain ⟨hroom, h0, hnf, q, hq, hbin⟩ := hr h
    refine ⟨hroom, h0, hnf, ⟨q, hq, fun helf => ?_⟩, hi.appendable⟩
    rw [hbin] at helf
    cases helf
  · rintro task k' ⟨⟨t, d, f, h⟩, -, hroom⟩
    refine ⟨hi.snoc h, ?_, fun hr' => ⟨hroom hr', fun hf => ?_, ?_⟩⟩
    · obtain ⟨b, hb, rfl, -⟩ := h.fresh
      have hlt := blockAddr_lt hb
      rw [isErrPtr, asSigned_of_lt (by omega)]
      simp
    · obtain ⟨-, -, hnf, -⟩ := hr hr'
      exact hnf (Kernel.fresh_setNext.mp (h.ext.fresh hf))
    · obtain ⟨-, h0, hnf, q, hq, -⟩ := hr hr'
      rw [hq]
      exact h.ext.store_setNext h0 hnf hq (by simp)

end New

end TaskInv

/-! ## Freeing a task -/

/-- The address space of `task` is gone, the rest is as in `k`. -/
structure SpaceFreed (L : ℕ → Option ℕ) (k : Kernel) (task : ℕ) (k₁ : Kernel) : Prop where
  globals : k₁.globals = k.globals
  single : ∀ p, L p = some task → k₁.Single p
  other : ∀ p a, L p = some a → (a ≠ task ∨ p = task) → k₁.Owns p 1 ∧ k₁.store p = k.store p

theorem SpaceFreed.release {L : ℕ → Option ℕ} {k k₁ : Kernel} {task p : ℕ}
    (h : SpaceFreed L k task k₁) (hp : L p = some task ∧ p ≠ task) :
    SpaceFreed L k task (k₁.release p) where
  globals := h.globals
  single q hq := (h.single q hq).release (h.single p hp.1)
  other q a hq ha := by
    have hne : q ≠ p := by
      rintro rfl
      rcases ha with ha | ha
      · rw [hp.1] at hq
        exact ha (Option.some.inj hq).symm
      · exact hp.2 ha
    obtain ⟨ho, hs⟩ := h.other q a hq ha
    exact ⟨ho.release_single (h.single p hp.1) hne, by rw [Kernel.release_store, if_neg hne, hs]⟩

namespace TaskInv

variable {L : ℕ → Option ℕ} {k k₁ : Kernel} {live : List ℕ} {task : ℕ} {t : Task}

/-- `task_free` of a live task has a result. -/
theorem free_meets (hi : TaskInv L ⟨k, live⟩) (hm : task ∈ live) :
    Meets True (taskFree task) k fun _ k' => ∃ t k₁, k.store task = some (.task t) ∧
      SpaceFreed L k task k₁ ∧ k' = k₁.withoutTask task t := by
  obtain ⟨t, ht, hspace⟩ := hi.task task hm
  obtain ⟨l₁, l₂, he⟩ := List.append_of_mem hm
  obtain ⟨h0, -, hprev⟩ := hi.pointers he ht
  have hfreed : SpaceFreed L k task k := ⟨rfl, fun p hp => (hi.owns p task hp).single,
    fun p a hp _ => ⟨hi.owns p a hp, rfl⟩⟩
  refine (taskFree_meets h0 ht hspace (fun p hp => (hi.owns p task hp.1).ne_zero)
    (fun k' p hp hI => hI.release hp) hfreed fun k' hk' => ?_).mono ?_
  · refine ⟨(hk'.other task task (hi.self task hm) (.inr rfl)).2.trans ht, fun hp => ?_⟩
    have hl₁ : l₁ ≠ [] := by
      rintro rfl
      exact hp hprev
    have hmem : last l₁ ∈ live := by
      rw [he]
      exact List.mem_append_left _ (last_mem hl₁)
    have hne : last l₁ ≠ task := by
      intro heq
      have := hi.nodup
      simp only [he, List.nodup_append] at this
      exact this.2.2 _ (last_mem hl₁) task (by simp) heq
    obtain ⟨q, hq, -⟩ := hi.task _ hmem
    rw [hprev]
    exact ⟨hne, q, (hk'.other _ _ (hi.self _ hmem) (.inl hne)).2.trans hq⟩
  · rintro _ k' ⟨k₁, hk₁, rfl⟩
    exact ⟨t, k₁, ht, hk₁, rfl⟩

/-- What belongs to another task stays as it is, up to the `next` pointer of the task
before. -/
theorem freed_store (hi : TaskInv L ⟨k, live⟩) (hk : SpaceFreed L k task k₁) (hm : task ∈ live)
    {p a : ℕ} (hp : L p = some a) (ha : a ≠ task) (hprev : p ≠ t.prev) :
    (k₁.withoutTask task t).store p = k.store p := by
  have hne : p ≠ task := by
    rintro rfl
    exact ha (Option.some.inj (hp.symm.trans (hi.self p hm)))
  rw [Kernel.withoutTask_store hne hprev, (hk.other p a hp (.inl ha)).2]

/-- The task after a freed one has a stale `prev` pointer. -/
theorem not_linked_of_free (hi : TaskInv L ⟨k, live⟩) {l₁ l₂ : List ℕ} {b : ℕ}
    (he : live = l₁ ++ task :: b :: l₂) (ht : k.store task = some (.task t))
    (hk : SpaceFreed L k task k₁) (a : ℕ) :
    ¬Linked (taskCell (k₁.withoutTask task t)) 0 (live.erase task) a := by
  have hnd := hi.nodup
  obtain ⟨-, -, hprev⟩ := hi.pointers he ht
  subst he
  obtain ⟨h1, h2, h3⟩ := List.nodup_append.mp hnd
  have herase : (l₁ ++ task :: b :: l₂).erase task = l₁ ++ b :: l₂ := by
    rw [List.erase_append_right _ fun hm => h3 task hm task (by simp) rfl, List.erase_cons_head]
  have hbt : b ≠ task := by
    rintro rfl
    simp at h2
  have hbp : b ≠ t.prev := by
    rw [hprev]
    intro heq
    by_cases hl₁ : l₁ = []
    · subst hl₁
      exact hi.linked.ne_zero (b := b) (by simp) heq
    · exact h3 _ (last_mem hl₁) b (by simp) heq.symm
  rw [herase]
  exact hi.linked.stale hnd (taskCell_congr
    (hi.freed_store hk (by simp) (hi.self b (by simp)) hbt hbp))

/-- The pointers of the last task. -/
theorem last_pointers (hi : TaskInv L ⟨k, live ++ [task]⟩) (ht : k.store task = some (.task t)) :
    task ∉ live ∧ live.Nodup ∧ t.next = 0 ∧ t.prev = last live := by
  obtain ⟨hnd, -, hdis⟩ := List.nodup_append.mp hi.nodup
  obtain ⟨-, hnext, hprev⟩ := hi.pointers rfl ht
  exact ⟨fun hm => hdis task hm task (by simp) rfl, hnd, hnext, hprev⟩

/-- The list pointers when the last task is gone. -/
theorem freed_globals (hi : TaskInv L ⟨k, live ++ [task]⟩) (ht : k.store task = some (.task t))
    (hk : SpaceFreed L k task k₁) : (k₁.withoutTask task t).taskHead = first live ∧
      (k₁.withoutTask task t).taskTail = last live ∧
      (live ≠ [] → (k₁.withoutTask task t).currentTask ∈ live) ∧
      (live = [] → (k₁.withoutTask task t).currentTask = 0) := by
  obtain ⟨hnot, -, hnext, hprev⟩ := hi.last_pointers ht
  have hhead : (k₁.withoutTask task t).taskHead = first live := by
    rw [Kernel.withoutTask_taskHead, Kernel.taskHead_of_globals hk.globals, hi.linked.head_eq]
    cases live with
    | nil => simp [hnext]
    | cons a l =>
      rw [if_neg]
      · rfl
      · rintro rfl
        exact hnot (by simp)
  have hcur : k.currentTask ∈ live ++ [task] := hi.current (by simp)
  have hcur' : (k₁.withoutTask task t).currentTask =
      if task = k.currentTask then first live else k.currentTask := by
    rw [Kernel.withoutTask_currentTask, hhead, if_pos hnext,
      Kernel.currentTask_of_globals hk.globals]
  refine ⟨hhead, ?_, fun hne => ?_, fun hnil => ?_⟩
  · rw [Kernel.withoutTask_taskTail, Kernel.taskTail_of_globals hk.globals,
      if_pos (hi.tail.trans (last_append_singleton live task)).symm, hprev]
  · rw [hcur']
    split_ifs with hc
    · exact first_mem hne
    · rcases List.mem_append.mp hcur with h | h
      · exact h
      · exact absurd (List.mem_singleton.mp h).symm hc
  · subst hnil
    rw [hcur', if_pos (List.mem_singleton.mp hcur).symm]
    rfl

/-- The new last task ends the list. -/
theorem freed_last (hi : TaskInv L ⟨k, live ++ [task]⟩) (ht : k.store task = some (.task t))
    (hk : SpaceFreed L k task k₁) {q : Task} (hne : live ≠ [])
    (hq : k.store (last live) = some (.task q)) :
    (k₁.withoutTask task t).store (last live) = some (.task { q with next := 0 }) := by
  obtain ⟨hnot, -, hnext, hprev⟩ := hi.last_pointers ht
  have hmem := last_mem hne
  have hlt : last live ≠ task := fun he => hnot (he ▸ hmem)
  have hl := hi.self _ (List.mem_append_left [task] hmem)
  rw [← hprev] at hlt hl hq ⊢
  rw [← hnext]
  exact Kernel.withoutTask_store_prev hlt (hi.owns _ _ hl).ne_zero
    ((hk.other _ _ hl (.inl hlt)).2.trans hq)

/-- Freeing the last task keeps the list right. -/
theorem free_last (hi : TaskInv L ⟨k, live ++ [task]⟩) (ht : k.store task = some (.task t))
    (hk : SpaceFreed L k task k₁) : ∃ L', TaskInv L' ⟨k₁.withoutTask task t, live⟩ := by
  classical
  obtain ⟨hnot, hnd, hnext, hprev⟩ := hi.last_pointers ht
  obtain ⟨hhead, htail, hcur, hempty⟩ := hi.freed_globals ht hk
  have hself := hi.self task (by simp)
  have hold : ∀ a ∈ live, a ≠ task ∧ L a = some a := fun a ha =>
    ⟨fun he => hnot (he ▸ ha), hi.self a (List.mem_append_left _ ha)⟩
  have hstore : ∀ p a, L p = some a → a ≠ task → p ≠ last live →
      (k₁.withoutTask task t).store p = k.store p := fun p a hp ha hpp =>
    hi.freed_store hk (by simp) hp ha (hprev ▸ hpp)
  refine ⟨fun p => if L p = some task then none else L p, fun p a hp => ?_, fun a ha => ?_,
    fun a ha => ?_, hnd, ?_, htail, hcur, hempty⟩
  · split_ifs at hp with hc
    have ha : a ≠ task := fun he => hc (he ▸ hp)
    exact (hk.other p a hp (.inl ha)).1.withoutTask (hk.single task hself) fun he => hc (he ▸ hself)
  · obtain ⟨hne, hl⟩ := hold a ha
    rw [if_neg fun hc => hne (Option.some.inj (hl.symm.trans hc)), hl]
  · obtain ⟨hne, hl⟩ := hold a ha
    obtain ⟨q, hq, hsp⟩ := hi.task a (List.mem_append_left _ ha)
    have hsp' : Space (fun p => (if L p = some task then none else L p) = some a ∧ p ≠ a)
        (fun _ _ => True) (k₁.withoutTask task t) q.pageDirectory := by
      refine hsp.imp (fun p hp => ⟨?_, hp.2⟩) (fun _ _ h => h) fun p hp =>
        hstore p a hp.1 hne fun he => ?_
      · rw [if_neg fun hc => hne (Option.some.inj (hp.1.symm.trans hc)), hp.1]
      · -- the last task is its own
        have hl' := (hold _ (last_mem (List.ne_nil_of_mem ha))).2
        rw [← he, hp.1] at hl'
        exact hp.2 (Option.some.inj hl').symm
    by_cases hal : a = last live
    · rw [hal] at hq
      refine ⟨{ q with next := 0 }, ?_, hsp'⟩
      rw [hal]
      exact hi.freed_last ht hk (List.ne_nil_of_mem ha) hq
    · exact ⟨q, (hstore a a hl hne hal).trans hq, hsp'⟩
  · show Linked (taskCell (k₁.withoutTask task t)) 0 live (k₁.withoutTask task t).taskHead
    rw [hhead]
    refine hi.linked.dropLast hnd (fun c hc hcl => taskCell_congr ?_) fun hne n p hcell => ?_
    · exact hstore c c (hold c hc).2 (hold c hc).1 hcl
    · obtain ⟨q, hq, -⟩ := hi.task _ (List.mem_append_left [task] (last_mem hne))
      have hcell' := taskCell_eq hq
      rw [hcell, Option.some.injEq, Prod.mk.injEq] at hcell'
      rw [taskCell_eq (hi.freed_last ht hk hne hq), hcell'.2]

end TaskInv

/-! ## The theorem on runs -/

theorem TaskInv.init {k : Kernel} (hhead : k.taskHead = 0) (htail : k.taskTail = 0)
    (hcur : k.currentTask = 0) : TaskInv (fun _ => none) ⟨k, []⟩ :=
  ⟨by simp, by simp, by simp, by simp, hhead, htail, by simp, fun _ => hcur⟩

/-- A step that frees no task but the last keeps the list right. -/
theorem TaskStep.inv {s t : TaskState} {c : TaskCall} (h : TaskStep s c t)
    (hi : ∃ L, TaskInv L s) (hc : FreesLast s c) : ∃ L, TaskInv L t := by
  obtain ⟨L, hi⟩ := hi
  cases h with
  | new he _ =>
    exact ((hi.new_meets (r := False) (c := 0) (·.elim)).of_eq he).1
  | @free task k' hm he =>
    obtain ⟨t, k₁, ht, hk, rfl⟩ := (hi.free_meets hm).of_eq he
    obtain ⟨l, hl⟩ := List.getLast?_eq_some_iff.mp hc
    have hnd := hi.nodup
    rw [hl] at hnd
    have hnot : task ∉ l := fun hm => (List.nodup_append.mp hnd).2.2 task hm task (by simp) rfl
    rw [hl, List.erase_append_right _ hnot, List.erase_cons_head, List.append_nil]
    obtain ⟨k, live⟩ := s
    subst hl
    exact hi.free_last ht hk
  | switch hm he =>
    obtain ⟨d, rfl⟩ := taskSwitch_meets.of_eq he
    exact ⟨L, hi.congr rfl rfl rfl rfl (fun _ => hm) fun hn => absurd (hn ▸ hm) (by simp)⟩
  | next he =>
    obtain ⟨hm, d, rfl⟩ := hi.next_meets.of_eq he
    exact ⟨L, hi.congr rfl rfl rfl rfl (fun _ => hm) fun hn => absurd (hn ▸ hm) (by simp)⟩

/-- A step that frees another task than the last leaves a stale `prev` pointer. -/
theorem TaskStep.not_ok {s t : TaskState} {c : TaskCall} (h : TaskStep s c t)
    (hi : ∃ L, TaskInv L s) (hc : ¬FreesLast s c) : ¬TaskListOk t := by
  obtain ⟨L, hi⟩ := hi
  cases h with
  | @free task k' hm he =>
    obtain ⟨t, k₁, ht, hk, rfl⟩ := (hi.free_meets hm).of_eq he
    obtain ⟨l₁, l₂, hl⟩ := List.append_of_mem hm
    cases l₂ with
    | nil => exact absurd (by simp [FreesLast, hl]) hc
    | cons b l₂ => exact fun hok => hi.not_linked_of_free hl ht hk _ hok.linked
  | _ => exact absurd trivial hc

/-- From the empty list, in every run of `task_new`, `task_free`, `task_switch` and
`task_next` the list is right in every state exactly when every freed task was the last
one of the list. -/
theorem task_runs_linked_iff_freesLast {k : Kernel} (hhead : k.taskHead = 0)
    (htail : k.taskTail = 0) (hcur : k.currentTask = 0)
    {tr : List (TaskState × TaskCall × TaskState)} {u : TaskState}
    (ht : Trace TaskStep ⟨k, []⟩ tr u) :
    (TaskListOk ⟨k, []⟩ ∧ ∀ x ∈ tr, TaskListOk x.2.2) ↔ ∀ x ∈ tr, FreesLast x.1 x.2.1 := by
  have h0 := TaskInv.init hhead htail hcur
  have hiff := ht.forall_iff (I := fun s => ∃ L, TaskInv L s) (P := fun _ _ t => TaskListOk t)
    (C := fun s c _ => FreesLast s c) ⟨_, h0⟩ (fun s c t hs hC hI => hs.inv hI hC)
    fun s c t hs hI => ⟨fun hok => by_contra fun hC => hs.not_ok hI hC hok,
      fun hC => (hs.inv hI hC).elim fun _ h => h.ok⟩
  rw [← hiff]
  exact and_iff_right h0.ok

/-- A kernel with no task and one process, a raw binary, in the first three blocks. -/
def oneProcess : Kernel := { Kernel.empty with
  heapTable := fun i => if i = 0 ∨ i = 1 ∨ i = 2 then blockByte 3 i.toNat else blockFree
  store := fun a =>
    if a = heapAddress then some (.process { Process.zero with filetype := .binary })
    else none
  processes := fun i => if i = 0 then heapAddress else 0
  currentProcess := heapAddress }

theorem oneProcess_roomy : oneProcess.Roomy 3 := by
  refine .of_free (fun b hb _ => ?_) (by decide)
  show (if _ then _ else _) = blockFree
  rw [if_neg (by omega)]

theorem oneProcess_not_fresh : ¬oneProcess.Fresh heapAddress := by
  rintro ⟨b, -, he, hf⟩
  obtain rfl : b = 0 := by
    unfold blockAddr at he
    omega
  exact blockByte_ne_free 3 0 hf

/-- Two tasks are created. -/
theorem oneProcess_two : ∃ a b k₁ k₂ L,
    TaskStep ⟨oneProcess, []⟩ (.new heapAddress) ⟨k₁, [a]⟩ ∧
      TaskStep ⟨k₁, [a]⟩ (.new heapAddress) ⟨k₂, [a, b]⟩ ∧ TaskInv L ⟨k₂, [a, b]⟩ := by
  have hinit := TaskInv.init (k := oneProcess) rfl rfl rfl
  have hnew₁ : Meets True (taskNew heapAddress) oneProcess _ := hinit.new_meets (c := 3) fun _ =>
    ⟨⟨oneProcess_roomy, by decide⟩, by decide, oneProcess_not_fresh, _, rfl, rfl⟩
  obtain ⟨a, k₁, he₁, ⟨L₁, hi₁⟩, hlow₁, hr₁⟩ := hnew₁.exists_result
  obtain ⟨hroom, hnf, hstore⟩ := hr₁ trivial
  have hnew₂ : Meets True (taskNew heapAddress) k₁ _ := hi₁.new_meets (c := 1030) fun _ =>
    ⟨⟨hroom, by decide⟩, by decide, hnf, _, hstore.trans rfl, rfl⟩
  obtain ⟨b, k₂, he₂, ⟨L₂, hi₂⟩, hlow₂, -⟩ := hnew₂.exists_result
  exact ⟨a, b, k₁, k₂, L₂, .new he₁ hlow₁, .new he₂ hlow₂, hi₂⟩

/-- Two tasks are created and the second is freed again. -/
theorem oneProcess_run_linked : ∃ a b k₁ k₂ k₃,
    TaskStep ⟨oneProcess, []⟩ (.new heapAddress) ⟨k₁, [a]⟩ ∧
      TaskStep ⟨k₁, [a]⟩ (.new heapAddress) ⟨k₂, [a, b]⟩ ∧
      TaskStep ⟨k₂, [a, b]⟩ (.free b) ⟨k₃, [a]⟩ ∧
      TaskListOk ⟨k₂, [a, b]⟩ ∧ TaskListOk ⟨k₃, [a]⟩ := by
  obtain ⟨a, b, k₁, k₂, L, hnew₁, hnew₂, hi⟩ := oneProcess_two
  have hnd : [a, b].Nodup := hi.nodup
  have hne : a ≠ b := by simpa using hnd
  obtain ⟨⟨⟩, k₃, he, -⟩ := (hi.free_meets (show b ∈ [a, b] by simp)).exists_result
  have hfree : TaskStep ⟨k₂, [a, b]⟩ (.free b) ⟨k₃, [a, b].erase b⟩ := .free (by simp) he
  rw [show [a, b].erase b = [a] by simp [hne]] at hfree
  have hrun : Trace TaskStep ⟨oneProcess, []⟩ _ ⟨k₃, [a]⟩ :=
    .cons hnew₁ (.cons hnew₂ (.cons hfree (.nil _)))
  have hok := ((task_runs_linked_iff_freesLast rfl rfl rfl hrun).mpr fun x hx => by
    simp only [List.mem_cons, List.not_mem_nil, or_false] at hx
    rcases hx with rfl | rfl | rfl
    · trivial
    · trivial
    · rfl).2
  exact ⟨a, b, k₁, k₂, k₃, hnew₁, hnew₂, hfree, hok (⟨k₁, [a]⟩, .new heapAddress, ⟨k₂, [a, b]⟩)
    (by simp),
    hok (⟨k₂, [a, b]⟩, .free b, ⟨k₃, [a]⟩) (by simp)⟩

/-- Two tasks are created and the first is freed : the `prev` pointer of the second still
leads to it. -/
theorem task_runs_not_all_linked :
    ¬∀ k : Kernel, k.taskHead = 0 → k.taskTail = 0 → k.currentTask = 0 →
      ∀ (tr : List (TaskState × TaskCall × TaskState)) (u : TaskState),
        Trace TaskStep ⟨k, []⟩ tr u → ∀ x ∈ tr, TaskListOk x.2.2 := by
  intro hall
  obtain ⟨a, b, k₁, k₂, L, hnew₁, hnew₂, hi⟩ := oneProcess_two
  obtain ⟨⟨⟩, k₃, he₃, -⟩ := (hi.free_meets (show a ∈ [a, b] by simp)).exists_result
  have hfree : TaskStep ⟨k₂, [a, b]⟩ (.free a) ⟨k₃, [a, b].erase a⟩ := .free (by simp) he₃
  have hok := hall oneProcess rfl rfl rfl _ _ (.cons hnew₁ (.cons hnew₂ (.cons hfree (.nil _))))
    (⟨k₂, [a, b]⟩, .free a, ⟨k₃, [a, b].erase a⟩) (by simp)
  refine hfree.not_ok ⟨L, hi⟩ (fun hlast => ?_) hok
  have hnd : [a, b].Nodup := hi.nodup
  simp only [FreesLast, List.getLast?_cons_cons, List.getLast?_singleton, Option.some.injEq]
    at hlast
  simp [hlast] at hnd

end Hyperion
