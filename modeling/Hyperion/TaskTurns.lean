import Hyperion.ProcessTable
import Hyperion.RunProgram
import Hyperion.TaskList

/-!
# Turns

`task_next` takes the next task of the list, and after the last one the first, so that the tasks
are a ring (`Turns`) and as many calls as there are tasks give each its turn. A freed task
leaves the ring, also where the `prev` pointer after it is stale, and the task that was after it is
the current one (`taskRotation_roundRobin`). The end of a process frees the task and then calls
`task_next`, which passes over that task (`exit_keepsTurn_iff`).

`taskRotation` is what the calls compute, and `RoundRobin` what they should : each task has one turn
and the last one is the task that they began with. The ring is a list with the current task in
front, and a call turns it by one (`Turns.next`, and `Turns.rotation` for any number). Only the
`next` pointers count when a task leaves the ring (`LeavesList`), and `task_list_remove` keeps them
right as long as the task before has not been freed.
-/

namespace Hyperion

open Partial DList Rings

variable {k k' k₀ k₁ : Kernel} {L : ℕ → Option ℕ} {live l l₁ l₂ : List ℕ} {a b task : ℕ}
  {t : Task} {r : Prop}

/-! ## The ring -/

/-- The current tasks after each of `n` calls of `task_next`. -/
def taskRotation : (n : ℕ) → KernelM (List ℕ)
  | 0 => return []
  | n + 1 => do
    let _ ← taskNext
    let k ← get
    let rest ← taskRotation n
    return k.currentTask :: rest

/-- `task_switch` to the task at `a` has a result. -/
def Kernel.Switchable (k : Kernel) (a : ℕ) : Prop :=
  a ≠ 0 ∧ ∃ t d, k.store a = some (.task t) ∧ t.pageDirectory ≠ 0 ∧
    k.store t.pageDirectory = some (.chunk d)

/-- The tasks in the order of their turns, the current one first. -/
structure Turns (k : Kernel) (ring : List ℕ) : Prop where
  current : k.currentTask = first ring
  around : Around k.nextTask ring
  switchable : ∀ a ∈ ring, k.Switchable a

theorem Kernel.nextTask_of_task (ha : a ≠ 0) (ht : k.store a = some (.task t)) :
    k.nextTask a = some (if t.next = 0 then k.taskHead else t.next) := by
  rw [Kernel.nextTask_eq, if_neg ha, ht]

theorem Kernel.Switchable.taskSwitch (h : k.Switchable a) : Meets r (taskSwitch a) k fun _ k' =>
    ∃ d, k' = { k with currentTask := a, currentDirectory := d } := by
  obtain ⟨ha, t, d, ht, hd, hc⟩ := h
  simp only [Hyperion.taskSwitch, pagingSwitch, Meets.bind_iff, Meets.modify_iff]
  have ht' : Kernel.store { k with currentTask := a } a = some (.task t) := ht
  rw [Kernel.getTask_meets ha ht']
  have hc' : Kernel.store { k with currentTask := a } t.pageDirectory = some (.chunk d) := hc
  rw [Kernel.getChunk_meets hd hc']
  exact ⟨d, rfl⟩

/-- Another `next` pointer does not matter for a switch. -/
theorem Kernel.Switchable.setNext {p n : ℕ} (h : k.Switchable a)
    (hs : k'.store a = (k.setNext p n).store a)
    (hc : ∀ t, k.store a = some (.task t) →
      k'.store t.pageDirectory = (k.setNext p n).store t.pageDirectory) : k'.Switchable a := by
  obtain ⟨ha, t, d, ht, hd, hchunk⟩ := h
  have hchunk' : k'.store t.pageDirectory = some (.chunk d) :=
    (hc t ht).trans (Kernel.setNext_store_of_not_task hchunk (by simp))
  by_cases hap : a = p
  · subst hap
    exact ⟨ha, _, d, hs.trans (Kernel.setNext_store_self ha ht), hd, hchunk'⟩
  · exact ⟨ha, t, d, hs.trans ((k.setNext_store hap).trans ht), hd, hchunk'⟩

/-- The next task has its turn. -/
theorem Turns.next (h : Turns k (a :: l)) : Meets r taskNext k fun next k' =>
    next = first (l ++ [a]) ∧ Turns k' (l ++ [a]) := by
  have hcur : k.currentTask = a := h.current
  obtain ⟨ha, t, d, ht, -⟩ := h.switchable a List.mem_cons_self
  have hnext := Kernel.nextTask_of_task ha ht
  rw [h.around.head] at hnext
  obtain ⟨b, rest, hring⟩ := List.exists_cons_of_ne_nil (show l ++ [a] ≠ [] by simp)
  rw [hring, List.head?_cons, Option.some_inj] at hnext
  have hb : b ∈ a :: l := by
    have hmem : b ∈ l ++ [a] := by simp [hring]
    simpa [or_comm] using hmem
  have hswitch := h.switchable b hb
  have hrest := h.around.turn
  rw [hring] at hrest
  simp only [taskNext, Meets.bind_iff]
  rw [taskGetNext_meets (hcur.trans_ne ha) (by rw [hcur]; exact ht), ← hnext, Meets.ite_iff]
  refine ⟨fun h0 => absurd h0 hswitch.1, fun _ => ?_⟩
  rw [Meets.bind_iff]
  refine hswitch.taskSwitch.mono ?_
  rintro _ _ ⟨c, rfl⟩
  rw [Meets.pure_iff, hring]
  refine ⟨rfl, rfl, hrest.congr fun _ _ => Kernel.nextTask_congr (fun _ => rfl) rfl, fun x hx => ?_⟩
  have hx' : x ∈ l ++ [a] := hring ▸ hx
  exact h.switchable x (by simpa [or_comm] using hx')

/-- Calls of `task_next` give the tasks of the ring their turns in order. -/
theorem Turns.rotation : ∀ (m : ℕ) {l : List ℕ} {a : ℕ} {k : Kernel}, m ≤ l.length + 1 →
    Turns k (a :: l) → Meets r (taskRotation m) k fun visited k' =>
      visited = (l ++ [a]).take m ∧ Turns k' ((a :: l).rotate m)
  | 0, l, a, k, _, h => Meets.pure_iff.mpr ⟨rfl, by simpa using h⟩
  | m + 1, l, a, k, hm, h => by
    rw [taskRotation, Meets.bind_iff]
    refine h.next.mono ?_
    rintro _ k₁ ⟨-, h₁⟩
    obtain ⟨c, rest, hring⟩ := List.exists_cons_of_ne_nil (show l ++ [a] ≠ [] by simp)
    have hlen : rest.length = l.length := by
      have := congrArg List.length hring
      simpa using this.symm
    rw [hring] at h₁
    simp only [Meets.bind_iff, Meets.get_iff, Meets.pure_iff]
    refine (Turns.rotation m (by omega) h₁).mono ?_
    rintro visited k₂ ⟨rfl, h₂⟩
    rw [List.rotate_cons_succ, hring]
    refine ⟨?_, h₂⟩
    rw [List.take_succ_cons, List.take_append_of_le_length (by omega)]
    exact congrArg (· :: _) h₁.current

/-- Calls of `task_next`, as many as there are tasks, give each task one turn and end with the
task that they started from. -/
def RoundRobin (k : Kernel) (live : List ℕ) : Prop :=
  ∃ visited k', taskRotation live.length k = some (visited, k') ∧ visited.Perm live ∧
    k'.currentTask = k.currentTask

theorem Turns.roundRobin {ring : List ℕ} (h : Turns k ring) (hp : ring.Perm live) :
    RoundRobin k live := by
  cases ring with
  | nil =>
    obtain rfl := hp.nil_eq
    exact ⟨[], k, rfl, .nil, rfl⟩
  | cons a l =>
    have hrun := h.rotation (r := True) (l.length + 1) le_rfl
    obtain ⟨visited, k', hrun, rfl, h'⟩ := hrun.exists_result
    have hfull : (a :: l).rotate (l.length + 1) = a :: l := List.rotate_length (a :: l)
    rw [hfull] at h'
    rw [List.take_of_length_le (by simp)] at hrun
    have hlen : live.length = l.length + 1 := hp.length_eq.symm
    refine ⟨l ++ [a], k', by rw [hlen]; exact hrun, ?_, h'.current.trans h.current.symm⟩
    exact (List.perm_append_comm.trans (by simp)).trans hp

/-! ## A task leaves the list -/

theorem mem_of_mem_others (hb : b ∈ l₂ ++ l₁) : b ∈ l₁ ++ task :: l₂ := by
  simp only [List.mem_append, List.mem_cons] at hb ⊢
  tauto

theorem not_mem_others (h : (l₁ ++ task :: l₂).Nodup) : task ∉ l₂ ++ l₁ :=
  (List.nodup_cons.mp (List.perm_append_comm.nodup h)).1

/-- The task at `task` has left the list, of which `rest` are the other tasks. -/
structure LeavesList (k k' : Kernel) (task : ℕ) (t : Task) (rest : List ℕ) : Prop where
  store : ∀ b ∈ rest, k'.store b = (k.setNext t.prev t.next).store b
  head : k'.taskHead = if task = k.taskHead then t.next else k.taskHead
  current : k'.currentTask = if task = k.currentTask then
    (if t.next = 0 then k'.taskHead else t.next) else k.currentTask

section Leaves

variable (hlinked : Linked (taskCell k) 0 (l₁ ++ task :: l₂) k.taskHead)

include hlinked

/-- A task of the list, with what is before and after it. -/
theorem task_of_linked (hb : b ∈ l₁ ++ task :: l₂) : b ≠ 0 ∧ ∃ q m₁ m₂,
    k.store b = some (.task q) ∧ l₁ ++ task :: l₂ = m₁ ++ b :: m₂ ∧ q.next = first m₂ := by
  obtain ⟨m₁, m₂, he⟩ := List.append_of_mem hb
  obtain ⟨hb0, hcell⟩ := hlinked.cell_eq he
  unfold taskCell at hcell
  split at hcell
  · rename_i q hq
    rw [Option.some.injEq, Prod.mk.injEq] at hcell
    exact ⟨hb0, q, m₁, m₂, hq, he, hcell.1⟩
  · cases hcell

/-- The tasks lead around. -/
theorem around_of_linked : Around k.nextTask (l₁ ++ task :: l₂) := by
  refine hlinked.around.congr fun b hb => ?_
  obtain ⟨hb0, q, -, -, hq, -⟩ := task_of_linked hlinked hb
  rw [Kernel.nextTask_of_task hb0 hq, taskCell_eq hq]
  rfl

variable (ht : k.store task = some (.task t))

include ht

theorem pointers_of_linked : task ≠ 0 ∧ t.next = first l₂ ∧ t.prev = last l₁ := by
  obtain ⟨h0, hcell⟩ := hlinked.cell_eq rfl
  rw [taskCell_eq ht, Option.some.injEq, Prod.mk.injEq] at hcell
  exact ⟨h0, hcell⟩

/-- The task that was after the current one is the current one. -/
theorem LeavesList.currentTask_eq (h : LeavesList k k' task t (l₂ ++ l₁))
    (hcur : task = k.currentTask) (hnd : task ∉ l₁) : k'.currentTask = first (l₂ ++ l₁) := by
  obtain ⟨h0, hnext, -⟩ := pointers_of_linked hlinked ht
  rw [h.current, if_pos hcur, h.head, hnext]
  cases l₂ with
  | cons c l₂ =>
    have hc : c ≠ 0 := hlinked.ne_zero (by simp)
    rw [first_cons, if_neg hc]
    rfl
  | nil =>
    rw [first_nil, if_pos rfl, hlinked.head_eq]
    cases l₁ with
    | nil => simp
    | cons c l₁ =>
      have hne : task ≠ c := fun he => hnd (by simp [he])
      rw [List.cons_append, first_cons, if_neg hne]
      rfl

/-- The task before leads to the one after. -/
theorem LeavesList.before (h : LeavesList k k' task t (l₂ ++ l₁)) (hnd : task ∉ l₂ ++ l₁)
    (hl₁ : l₁ ≠ []) : k.nextTask (last l₁) = some task ∧
      k'.nextTask (last l₁) = k.nextTask task := by
  obtain ⟨h0, -, hprev⟩ := pointers_of_linked hlinked ht
  obtain ⟨m, c, rfl⟩ := (List.eq_nil_or_concat l₁).resolve_left hl₁
  rw [List.concat_eq_append] at *
  rw [last_append_singleton] at *
  obtain ⟨hc0, q, -, -, hq, -, -⟩ := task_of_linked hlinked (b := c) (by simp)
  have hsplit : m ++ [c] ++ task :: l₂ = m ++ c :: task :: l₂ := by simp
  have hcell := (hlinked.cell_eq hsplit).2
  rw [taskCell_eq hq, first_cons, Option.some.injEq, Prod.mk.injEq] at hcell
  have hhead : task ≠ k.taskHead := by
    rw [hlinked.head_eq]
    intro he
    refine hnd (List.mem_append_right _ ?_)
    rw [he]
    cases m <;> simp
  have hstore : k'.store c = some (.task { q with next := t.next }) := by
    rw [h.store c (by simp), ← hprev]
    exact Kernel.setNext_store_self (hprev ▸ hc0) (hprev ▸ hq)
  constructor
  · rw [Kernel.nextTask_of_task hc0 hq, hcell.1, if_neg h0]
  · rw [Kernel.nextTask_of_task hc0 hstore, Kernel.nextTask_of_task h0 ht, h.head, if_neg hhead]

/-- No other task than the one before leads to `task` by its pointer. -/
theorem next_ne_of_linked {q : Task} {m₁ m₂ : List ℕ}
    (he : l₁ ++ task :: l₂ = m₁ ++ b :: m₂) (hq : q.next = first m₂) (hbp : b ≠ t.prev) :
    q.next ≠ task := by
  obtain ⟨h0, -, -⟩ := pointers_of_linked hlinked ht
  intro hqt
  cases m₂ with
  | nil => exact h0 (hqt.symm.trans hq)
  | cons c m₂ =>
    obtain rfl : c = task := hq.symm.trans hqt
    have hsplit : l₁ ++ c :: l₂ = (m₁ ++ [b]) ++ c :: m₂ := by simp [he]
    have hcell := (hlinked.cell_eq hsplit).2
    rw [taskCell_eq ht, last_append_singleton, Option.some.injEq, Prod.mk.injEq] at hcell
    exact hbp hcell.2.symm

/-- The others lead where they led, or past `task`. -/
theorem LeavesList.next_cases (h : LeavesList k k' task t (l₂ ++ l₁)) (hnd : task ∉ l₂ ++ l₁)
    (hb : b ∈ l₂ ++ l₁) : (k.nextTask b = some task ∧ k'.nextTask b = k.nextTask task) ∨
      (k.nextTask b ≠ some task ∧ k'.nextTask b = k.nextTask b) := by
  obtain ⟨h0, hnext, hprev⟩ := pointers_of_linked hlinked ht
  obtain ⟨hb0, q, m₁, m₂, hq, he, hqn⟩ := task_of_linked hlinked (mem_of_mem_others hb)
  by_cases hbp : b = t.prev
  · have hl₁ : l₁ ≠ [] := by
      rintro rfl
      exact hb0 (hbp.trans hprev)
    rw [hbp, hprev]
    exact .inl (h.before hlinked ht hnd hl₁)
  have hstore : k'.store b = some (.task q) := by
    rw [h.store b hb, k.setNext_store hbp, hq]
  rw [Kernel.nextTask_of_task hb0 hq, Kernel.nextTask_of_task hb0 hstore]
  by_cases hz : q.next = 0
  · -- the last task leads to the head
    have hlast {m : List ℕ} (hm : first m = 0) (hsub : ∀ c ∈ m, c ∈ l₁ ++ task :: l₂) : m = [] := by
      by_contra hne
      exact hlinked.ne_zero (hsub _ (first_mem hne)) hm
    have hm₂ : m₂ = [] := hlast (hqn.symm.trans hz) fun c hc => by
      rw [he]
      simp [hc]
    have ht0 : t.next ≠ 0 := by
      intro hz'
      have hl₂ : l₂ = [] := hlast (hnext.symm.trans hz') fun c hc => by simp [hc]
      rw [hl₂, hm₂] at he
      have hbt := List.singleton_inj.mp (List.append_inj' he rfl).2
      exact hnd (hbt ▸ hb)
    rw [if_pos hz, if_pos hz, h.head, Kernel.nextTask_of_task h0 ht, if_neg ht0]
    by_cases hhead : task = k.taskHead
    · exact .inl ⟨by rw [hhead], by rw [if_pos hhead]⟩
    · exact .inr ⟨fun he' => hhead (Option.some.inj he').symm, by rw [if_neg hhead]⟩
  · rw [if_neg hz, if_neg hz]
    exact .inr ⟨fun he' => next_ne_of_linked hlinked ht he hqn hbp (Option.some.inj he'), rfl⟩

/-- The others still lead around. -/
theorem LeavesList.around (h : LeavesList k k' task t (l₂ ++ l₁)) (hnd : task ∉ l₂ ++ l₁) :
    Around k'.nextTask (l₂ ++ l₁) := by
  have hring : Around k.nextTask (task :: (l₂ ++ l₁)) :=
    Around.comm (around_of_linked hlinked)
  refine hring.unlink hnd (fun b hb hto => ?_) fun b hb hto => ?_
  · exact ((h.next_cases hlinked ht hnd hb).resolve_right fun hno => hno.1 hto).2
  · exact ((h.next_cases hlinked ht hnd hb).resolve_left fun hyes => hto hyes.1).2

end Leaves

/-! ## The lists of `task_new` -/

/-- A task that leads to a chunk can be switched to. -/
theorem Kernel.switchable_of_space {P : ℕ → Prop} {T : ℕ → (ℕ → ℕ) → Prop} (ha : a ≠ 0)
    (ht : k.store a = some (.task t)) (hs : Space P T k t.pageDirectory) (hP : ∀ p, P p → p ≠ 0) :
    k.Switchable a := by
  obtain ⟨d, f, hspace⟩ := hs
  exact ⟨ha, t, d, ht, hP _ hspace.chunk_mem, hspace.chunk⟩

theorem TaskInv.turns (hi : TaskInv L ⟨k, live⟩) (he : live = l₁ ++ k.currentTask :: l₂) :
    Turns k (k.currentTask :: (l₂ ++ l₁)) := by
  subst he
  refine ⟨rfl, Around.comm (around_of_linked hi.linked), fun a ha => ?_⟩
  have ha' : a ∈ l₁ ++ k.currentTask :: l₂ := by
    simp only [List.mem_append, List.mem_cons] at ha ⊢
    tauto
  obtain ⟨q, hq, hspace⟩ := hi.task a ha'
  exact Kernel.switchable_of_space (hi.linked.ne_zero ha') hq hspace
    fun p hp => (hi.owns p a hp.1).ne_zero

/-- The tasks that are left when the current one is freed. -/
theorem TaskInv.free_turns (hi : TaskInv L ⟨k, live⟩) (he : live = l₁ ++ k.currentTask :: l₂) :
    Meets True (taskFree k.currentTask) k fun _ k' => Turns k' (l₂ ++ l₁) := by
  have hm : k.currentTask ∈ live := by simp [he]
  refine (hi.free_meets hm).mono ?_
  rintro _ _ ⟨t, k₁, ht, hk, rfl⟩
  have hnodup := hi.nodup
  have hlinked := hi.linked
  simp only [he] at hnodup hlinked
  have hnd := not_mem_others hnodup
  have hlive {b : ℕ} (hb : b ∈ l₂ ++ l₁) : b ∈ live ∧ b ≠ k.currentTask :=
    ⟨he ▸ mem_of_mem_others hb, fun h => hnd (h ▸ hb)⟩
  have hkept {p b : ℕ} (hp : L p = some b) (hbc : b ≠ k.currentTask) :
      (k₁.withoutTask k.currentTask t).store p = (k.setNext t.prev t.next).store p := by
    have hpc : p ≠ k.currentTask := by
      rintro rfl
      exact hbc (Option.some.inj (hp.symm.trans (hi.self _ hm)))
    rw [Kernel.withoutTask, Kernel.release_store, if_neg hpc]
    exact Kernel.setNext_store_congr (hk.other p b hp (.inl hbc)).2
  have hleaves : LeavesList k (k₁.withoutTask k.currentTask t) k.currentTask t (l₂ ++ l₁) := by
    refine ⟨fun b hb => hkept (hi.self b (hlive hb).1) (hlive hb).2, ?_, ?_⟩
    · rw [Kernel.withoutTask_taskHead, Kernel.taskHead_of_globals hk.globals]
    · rw [Kernel.withoutTask_currentTask, Kernel.currentTask_of_globals hk.globals]
  refine ⟨hleaves.currentTask_eq hlinked ht rfl fun hmem => hnd (List.mem_append_right _ hmem),
    hleaves.around hlinked ht hnd, fun b hb => ?_⟩
  obtain ⟨hbl, hbc⟩ := hlive hb
  obtain ⟨q, hq, hspace⟩ := hi.task b hbl
  have hswitch := Kernel.switchable_of_space (hi.linked.ne_zero hbl) hq hspace
    fun p hp => (hi.owns p b hp.1).ne_zero
  exact hswitch.setNext (hkept (hi.self b hbl) hbc) fun u hu => by
    rw [hq] at hu
    cases hu
    obtain ⟨d, f, hspace⟩ := hspace
    exact hkept hspace.chunk_mem.1 hbc

/-- From the empty list, in every state of a run in which a freed task was the last one of the
list, `task_next` gives each of the tasks one turn and comes back, and when the current task is
freed, the one after it, or else the head, is the current one and the others have their turns. -/
theorem taskRotation_roundRobin (hhead : k.taskHead = 0) (htail : k.taskTail = 0)
    (hcur : k.currentTask = 0) {tr : List (TaskState × TaskCall × TaskState)} {u : TaskState}
    (ht : Trace TaskStep ⟨k, []⟩ tr u) (hlast : ∀ x ∈ tr, FreesLast x.1 x.2.1)
    (hne : u.live ≠ []) :
    u.live.Nodup ∧ RoundRobin u.kernel u.live ∧ ∃ l₁ l₂ k',
      u.live = l₁ ++ u.kernel.currentTask :: l₂ ∧
      taskFree u.kernel.currentTask u.kernel = some ((), k') ∧
      k'.currentTask = first (l₂ ++ l₁) ∧ RoundRobin k' (l₁ ++ l₂) := by
  obtain ⟨-, L, hi⟩ := ht.invariant (I := fun s => ∃ L, TaskInv L s)
    (C := fun s c _ => FreesLast s c) ⟨_, .init hhead htail hcur⟩
    (fun s c t hs hC hI => hs.inv hI hC) hlast
  obtain ⟨k', live⟩ := u
  obtain ⟨l₁, l₂, he⟩ := List.append_of_mem (hi.current hne)
  have he : live = l₁ ++ k'.currentTask :: l₂ := he
  have hturns := hi.turns he
  have hperm : (k'.currentTask :: (l₂ ++ l₁)).Perm live := by
    rw [he]
    exact (List.perm_append_comm : ((k'.currentTask :: l₂) ++ l₁).Perm _)
  obtain ⟨⟨⟩, k'', hfree, hleft⟩ := (hi.free_turns he).exists_result
  exact ⟨hi.nodup, hturns.roundRobin hperm, l₁, l₂, k'', he, hfree, hleft.current,
    hleft.roundRobin List.perm_append_comm⟩

/-- Two tasks are created and have their turns. -/
theorem taskRotation_roundRobin_two : ∃ a b k₁ k₂, taskNew heapAddress oneProcess = some (a, k₁) ∧
    taskNew heapAddress k₁ = some (b, k₂) ∧ [a, b].Nodup ∧ RoundRobin k₂ [a, b] := by
  have hinit := TaskInv.init (k := oneProcess) rfl rfl rfl
  have hnew₁ : Meets True (taskNew heapAddress) oneProcess _ := hinit.new_meets (c := 3) fun _ =>
    ⟨⟨oneProcess_roomy, by decide⟩, by decide, oneProcess_not_fresh, _, rfl, rfl⟩
  obtain ⟨a, k₁, he₁, ⟨L₁, hi₁⟩, hlow₁, hr₁⟩ := hnew₁.exists_result
  obtain ⟨hroom, hnf, hstore⟩ := hr₁ trivial
  have hnew₂ : Meets True (taskNew heapAddress) k₁ _ := hi₁.new_meets (c := 1030) fun _ =>
    ⟨⟨hroom, by decide⟩, by decide, hnf, _, hstore.trans rfl, rfl⟩
  obtain ⟨b, k₂, he₂, -, hlow₂, -⟩ := hnew₂.exists_result
  have hrun : Trace TaskStep ⟨oneProcess, []⟩ [(_, .new heapAddress, _), (_, .new heapAddress, _)]
      ⟨k₂, [a, b]⟩ := .cons (.new he₁ hlow₁) (.cons (.new he₂ hlow₂) (.nil _))
  have hround := taskRotation_roundRobin rfl rfl rfl hrun (by simp [FreesLast]) (by simp)
  exact ⟨a, b, k₁, k₂, he₁, he₂, hround.1, hround.2.1⟩

end Hyperion
