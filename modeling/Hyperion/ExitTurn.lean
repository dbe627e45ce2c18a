import Hyperion.TaskTurns

/-!
# The turn after an exit

The current process ends by `isr80h_command9_exit`, or by `idt_handle_exception` when it faults.
`process_terminate` frees the task, which makes the task after it the current one, and
`task_next` then goes on to the one after that. So the task after has the turn only
where it is the only other one (`exit_keepsTurn_iff`).

The tasks of the list `live` are linked in a ring in the order in which the clock gives them their
turns (`Exiting.turns`). `Exiting` is the state before the exit : the current task is that of the
process that ends, which owns all that it is going to free in a ledger, and every other task
belongs to another process (`OtherTask`). What is freed is nothing of the others
(`Exiting.kept`), so that they keep their order (`Exiting.terminate`). `Exiting.exit_meets` names
the task that is switched to.

Both ways of ending call the same two functions. With two other tasks the one after the process
has no turn (`exit_costs_turn`).
-/

namespace Hyperion

open Partial DList Rings

variable {k k' : Kernel} {L : ℕ → Option ℕ} {live l₁ l₂ : List ℕ} {process slot a : ℕ}
  {p : Process} {t : Task} {d : ℕ} {f e : ℕ → ℕ} {r : Prop}

/-- The task that the end of a faulting process switches to. -/
def idtHandleException : KernelM ℕ := do
  let k ← get
  let task ← getTask k.currentTask
  let _ ← processTerminate task.process
  taskNext

/-- The task that a clock tick switches to, once the interrupt is acknowledged. -/
def idtClock : KernelM ℕ := taskNext

/-! ## The state before -/

/-- The task at `a` can be switched to, and neither it nor its chunk belongs to `process`. -/
structure OtherTask (L : ℕ → Option ℕ) (k : Kernel) (process a : ℕ) : Prop where
  self : L a ≠ some process ∧ k.Placed a
  switchable : k.Switchable a
  chunk : ∀ q, k.store a = some (.task q) → L q.pageDirectory ≠ some process ∧
    k.Placed q.pageDirectory

/-- The current task, of the list `live`, is that of the process in slot `slot`. The ledger `L`
gives all that belongs to the process to it, and the other tasks to others. -/
structure Exiting (L : ℕ → Option ℕ) (k : Kernel) (live : List ℕ) (process slot : ℕ) (p : Process)
    (t : Task) (d : ℕ) (f e : ℕ → ℕ) : Prop where
  guarded : Guarded k.table
  resident : Resident L k process slot p t d f e
  recorded : ∀ a, p.Recorded a → L a = some process ∧ (∃ n, k.Owns a n) ∧
    ¬p.Pointer process t d f a
  current : k.currentTask = p.task
  nodup : live.Nodup
  linked : Linked (taskCell k) 0 live k.taskHead
  mem : k.currentTask ∈ live
  other : ∀ a ∈ live, a ≠ k.currentTask → OtherTask L k process a
  elsewhere : k.currentProcess = process → ∃ i < maxProcesses, i ≠ slot ∧ k.processes i ≠ 0

namespace Exiting

/-- The state in which all that the process owns is free. -/
noncomputable def base (k : Kernel) (process : ℕ) (p : Process) (t : Task) (d : ℕ) (f : ℕ → ℕ) :
    Kernel :=
  (k.without p.Recorded).without (p.Freed process t d f)

section

variable (h : Exiting L k live process slot p t d f e)

include h

/-- The current task is that of the process that exits. -/
theorem self : k.store k.currentTask = some (.task t) := by
  rw [h.current]
  exact h.resident.at_process.task

/-- It is not among the others. -/
theorem not_mem (hlive : live = l₁ ++ k.currentTask :: l₂) : k.currentTask ∉ l₂ ++ l₁ := by
  have hnodup := h.nodup
  rw [hlive] at hnodup
  exact not_mem_others hnodup

/-- Every other task of the list belongs to another process. -/
theorem otherTask {b : ℕ} (hlive : live = l₁ ++ k.currentTask :: l₂) (hb : b ∈ l₂ ++ l₁) :
    OtherTask L k process b :=
  h.other b (hlive ▸ mem_of_mem_others hb) fun he => h.not_mem hlive (he ▸ hb)

/-- Without its allocations the process is resident. -/
theorem resident_without : Resident L (k.without p.Recorded) process slot p t d f e :=
  { h.resident with
    at_process := h.resident.at_process.congr fun _ _ => rfl
    owned := fun a ha => by
      obtain ⟨hL, n, hn⟩ := h.resident.owned a ha
      exact ⟨hL, n, hn.without fun hrec => (h.recorded a hrec).2.2 ha⟩ }

/-- Where its records start from. -/
theorem allocState : AllocState (k.without p.Recorded) process p t d f k p.allocations e where
  keeps := k.without_keeps _
  at_process := h.resident.at_process
  pointers a ha := by
    obtain ⟨-, n, hn⟩ := h.resident_without.owned a (.space ha)
    exact hn.not_fresh
  records i hi := by
    by_cases h0 : (p.allocations i).ptr = 0
    · exact .inl h0
    · have hrec : p.Recorded (p.allocations i).ptr := ⟨h0, i, hi, rfl⟩
      obtain ⟨-, ⟨n, hn⟩, -⟩ := h.recorded _ hrec
      exact .inr (hn.fresh_without hrec)

/-- What belongs to others is not freed. -/
theorem kept (hL : L a ≠ some process) (ha : k.Placed a) : ¬(base k process p t d f).Fresh a := by
  have hrec : ¬p.Recorded a := fun hrec => hL (h.recorded a hrec).1
  exact ((ha.without hrec).without fun hF => hL (h.resident.owned a hF.1).1).not_fresh

/-- The task before the one that goes is kept. -/
theorem prev_kept (hlive : live = l₁ ++ k.currentTask :: l₂) (hp : t.prev ≠ 0) :
    ¬(base k process p t d f).Fresh t.prev ∧ ∃ q, k.store t.prev = some (.task q) := by
  have hlinked := h.linked
  rw [hlive] at hlinked
  obtain ⟨-, -, hprev⟩ := pointers_of_linked hlinked h.self
  have hl₁ : l₁ ≠ [] := by
    rintro rfl
    exact hp hprev
  have hother := h.otherTask hlive (List.mem_append_right _ (last_mem hl₁))
  obtain ⟨-, q, c, hq, -⟩ := hother.switchable
  rw [hprev]
  exact ⟨h.kept hother.self.1 hother.self.2, q, hq⟩

/-- `process_terminate` leaves the others in their order. -/
theorem terminate (hlive : live = l₁ ++ k.currentTask :: l₂) :
    Meets True (processTerminate process) k fun _ k' => Turns k' (l₂ ++ l₁) := by
  have hres := h.resident
  have hguard : Guarded (base k process p t d f).table :=
    Kernel.without_guarded (Kernel.without_guarded h.guarded)
  refine (processTerminate_meets hguard (Kernel.without_keeps _ _)
    h.allocState h.resident_without.ownData fun _ => ⟨hres.typed, h.prev_kept hlive, ?_⟩).mono ?_
  · rw [hres.pid]
    exact h.elsewhere
  rintro _ k' ⟨-, hend⟩
  have ht := h.self
  have hlinked := h.linked
  rw [hlive] at hlinked
  have hnd := h.not_mem hlive
  have hother {b : ℕ} (hb : b ∈ l₂ ++ l₁) : OtherTask L k process b := h.otherTask hlive hb
  have hstore {b : ℕ} (hL : L b ≠ some process) (hb : k.Placed b) (hb0 : b ≠ 0) :
      k'.store b = (k.setNext t.prev t.next).store b :=
    hend.store b hb0 (h.kept hL hb) fun he => hL (he ▸ (hres.owned process (.space .self)).1)
  obtain ⟨c, -, hglob⟩ := hend.globals
  have hhead : k'.taskHead = if p.task = k.taskHead then t.next else k.taskHead :=
    congrArg Kernel.taskHead hglob
  have hleaves : LeavesList k k' k.currentTask t (l₂ ++ l₁) := by
    refine ⟨fun b hb => ?_, ?_, ?_⟩
    · exact hstore (hother hb).self.1 (hother hb).self.2 (hother hb).switchable.1
    · rw [h.current, hhead]
    · rw [h.current, hhead, ← h.current]
      have hcurrent := congrArg Kernel.currentTask hglob
      rw [← h.current] at hcurrent
      exact hcurrent
  refine ⟨hleaves.currentTask_eq hlinked ht rfl fun hmem => hnd (List.mem_append_right _ hmem),
    hleaves.around hlinked ht hnd, fun b hb => ?_⟩
  obtain ⟨⟨hL, hplaced⟩, hswitch, hchunk⟩ := hother hb
  obtain ⟨hb0, q, c', hq, hq0, -⟩ := hswitch
  refine (hother hb).switchable.setNext (hstore hL hplaced hb0) fun u hu => ?_
  obtain ⟨hLc, hpc⟩ := hchunk u hu
  rw [hq] at hu
  cases hu
  exact hstore hLc hpc hq0

/-- The tasks in their order, as the clock gives them their turns. -/
theorem turns (hlive : live = l₁ ++ k.currentTask :: l₂) :
    Turns k (k.currentTask :: (l₂ ++ l₁)) := by
  have hlinked := h.linked
  rw [hlive] at hlinked
  have hat := h.resident.at_process
  refine ⟨rfl, Around.comm (around_of_linked hlinked), fun b hb => ?_⟩
  by_cases hbc : b = k.currentTask
  · rw [hbc, h.current]
    exact ⟨hat.task_ne, t, d, hat.task, hat.maps.chunk_ne, hat.maps.chunk⟩
  · exact (h.otherTask hlive ((List.mem_cons.mp hb).resolve_left hbc)).switchable

/-- The end of the process gives the turn to the task after the one after it. -/
theorem exit_meets (hlive : live = l₁ ++ k.currentTask :: l₂) (hmany : l₂ ++ l₁ ≠ []) :
    Meets True isr80hCommand9Exit k fun after _ => ∀ b rest, l₂ ++ l₁ = b :: rest →
      after = first (rest ++ [b]) := by
  have h0 : k.currentTask ≠ 0 := by
    rw [h.current]
    exact h.resident.at_process.task_ne
  rw [isr80hCommand9Exit, Meets.bind_iff, Meets.get_iff, Meets.bind_iff,
    Kernel.getTask_meets h0 h.self,
    h.resident.owner, Meets.bind_iff]
  refine (h.terminate hlive).mono fun _ k' hturns => ?_
  obtain ⟨b, rest, hring⟩ := List.exists_cons_of_ne_nil hmany
  rw [hring] at hturns
  refine hturns.next.mono ?_
  rintro after k'' ⟨rfl, -⟩ b' rest' he
  rw [hring] at he
  cases he
  rfl

end

end Exiting

/-- The task after the one of a process that ends, which a clock tick would switch to, has the
turn exactly if there are two tasks. -/
theorem exit_keepsTurn_iff (h : Exiting L k live process slot p t d f e)
    (hlive : live = l₁ ++ k.currentTask :: l₂) (hmany : 2 ≤ live.length) {exit : KernelM ℕ}
    (hexit : exit ∈ [isr80hCommand9Exit, idtHandleException]) :
    ∃ next after k₁ k₂, next = first (l₂ ++ l₁) ∧ idtClock k = some (next, k₁) ∧
      exit k = some (after, k₂) ∧ (after = next ↔ live.length = 2) := by
  obtain rfl : exit = isr80hCommand9Exit := by
    rcases List.mem_cons.mp hexit with rfl | hexit
    · rfl
    · exact List.mem_singleton.mp hexit
  have hlen : live.length = (l₂ ++ l₁).length + 1 := by
    rw [hlive]
    simp only [List.length_append, List.length_cons]
    omega
  obtain ⟨b, rest, hring⟩ := List.exists_cons_of_ne_nil
    (List.ne_nil_of_length_pos (show 0 < (l₂ ++ l₁).length by omega))
  have hclock : Meets True idtClock k _ := (h.turns hlive).next
  obtain ⟨next, k₁, hrun₁, rfl, -⟩ := hclock.exists_result
  obtain ⟨after, k₂, hrun₂, hafter⟩ := (h.exit_meets hlive (by rw [hring]; simp)).exists_result
  have hnext : first (l₂ ++ l₁ ++ [k.currentTask]) = first (l₂ ++ l₁) := by rw [hring]; rfl
  rw [hnext] at hrun₁
  refine ⟨_, after, k₁, k₂, rfl, hrun₁, hrun₂, ?_⟩
  rw [hafter b rest hring, hlen, hring]
  cases rest with
  | nil => exact iff_of_true rfl rfl
  | cons c rest =>
    have hnodup := h.nodup
    rw [hlive] at hnodup
    have hcons := (List.nodup_cons.mp (List.perm_append_comm.nodup hnodup)).2
    have hcons' : (l₂ ++ l₁).Nodup := hcons
    rw [hring] at hcons'
    refine iff_of_false (fun hcb => ?_) (by simp)
    have hcb' : c = b := hcb
    simp [hcb'] at hcons'

/-! ## A list of two and a list of three -/

/-- The process that ends, in blocks 0 to 6, has 100 to 1123 for its tables. Its task is the head
of a list with the tasks in block 10 and, if `third`, in block 11. -/
def exitObj (third : Bool) (b : ℕ) : Option Obj :=
  if 100 ≤ b ∧ b < 1124 then some (.table fun _ => 0)
  else match b with
    | 0 => some (.process { Process.zero with
        filetype := .binary, data := .ptr (blockAddr 5), stack := blockAddr 6,
        task := blockAddr 1 })
    | 1 => some (.task { Task.zero with
        pageDirectory := blockAddr 2, process := blockAddr 0, next := blockAddr 10 })
    | 2 => some (.chunk (blockAddr 3))
    | 3 => some (.directory fun i => blockAddr (100 + i))
    | 8 => some (.chunk (blockAddr 9))
    | 10 => some (.task { Task.zero with
        pageDirectory := blockAddr 8, next := if third then blockAddr 11 else 0,
        prev := blockAddr 1 })
    | 11 => if third then some (.task { Task.zero with
        pageDirectory := blockAddr 8, prev := blockAddr 10 }) else none
    | _ => none

def exitKernel (third : Bool) : Kernel := { Kernel.empty with
  heapTable := fun i => if 0 ≤ i ∧ i < 2000 then blockByte 1 0 else blockFree
  store := fun a => if (a - heapAddress) % 4096 = 0 ∧ heapAddress ≤ a then
    exitObj third ((a - heapAddress) / 4096) else none
  processes := fun i => if i = 0 then blockAddr 0 else if i = 1 then blockAddr 12 else 0
  taskHead := blockAddr 1
  currentTask := blockAddr 1 }

variable {third : Bool} {b : ℕ}

/-- Structures are at the addresses of blocks. -/
theorem exitKernel_store (b : ℕ) : (exitKernel third).store (blockAddr b) = exitObj third b := by
  have hoff : blockAddr b - heapAddress = 4096 * b := by
    unfold blockAddr
    omega
  simp only [exitKernel]
  rw [hoff, if_pos ⟨by omega, by unfold blockAddr; omega⟩, Nat.mul_div_cancel_left _ (by decide)]

/-- Every one of the first blocks is owned. -/
theorem exitKernel_owns (hb : b < 2000) : (exitKernel third).Owns (blockAddr b) 1 := by
  refine ⟨b, rfl, by decide, show b < heapTotalBlocks by unfold heapTotalBlocks; omega,
    fun i hi _ => ?_⟩
  obtain rfl : i = 0 := by omega
  simp only [exitKernel, Kernel.table, Kernel.heap]
  rw [if_pos ⟨by omega, by omega⟩]

/-- An entry leads to its table. -/
theorem exitKernel_entry {i : ℕ} (hi : i < 1024) :
    entryAddress (blockAddr (100 + i)) = blockAddr (100 + i) := by
  rw [entryAddress_eq]
  unfold blockAddr heapAddress
  omega

/-- The space of the process. -/
theorem exitKernel_maps : Maps (exitKernel third) (blockAddr 2) (blockAddr 3)
    (fun i => blockAddr (100 + i)) fun _ => 0 where
  chunk_ne := blockAddr_pos 2
  directory_ne := blockAddr_pos 3
  table_ne i hi := by
    rw [exitKernel_entry hi]
    exact blockAddr_pos _
  inj i hi j hj he := by
    rw [exitKernel_entry hi, exitKernel_entry hj] at he
    have := blockAddr_inj.mp he
    omega
  chunk := exitKernel_store 2
  directory := exitKernel_store 3
  table i hi := by
    refine ⟨fun _ => 0, ?_, fun _ _ => rfl⟩
    rw [exitKernel_entry hi, exitKernel_store]
    exact if_pos ⟨by omega, by omega⟩

/-- What belongs to the process. -/
def exitLedger (a : ℕ) : Option ℕ :=
  if blockAddr 8 ≤ a ∧ a ≤ blockAddr 11 then none else some (blockAddr 0)

/-- The other tasks. -/
def exitOthers (third : Bool) : List ℕ :=
  if third then [blockAddr 10, blockAddr 11] else [blockAddr 10]

/-- The blocks of the other tasks. -/
theorem exitKernel_theirs (hlo : 8 ≤ b) (hhi : b ≤ 11) :
    exitLedger (blockAddr b) ≠ some (blockAddr 0) ∧ (exitKernel third).Placed (blockAddr b) := by
  refine ⟨?_, .inl ⟨1, exitKernel_owns (by omega)⟩⟩
  rw [exitLedger, if_pos (by unfold blockAddr; omega)]
  exact fun h => nomatch h

/-- All others belong to the process that exits. -/
theorem exitKernel_mine (hlo : b < 8 ∨ 11 < b) (hlt : b < 2000) :
    exitLedger (blockAddr b) = some (blockAddr 0) ∧ ∃ n, (exitKernel third).Owns (blockAddr b) n :=
  ⟨if_neg (by unfold blockAddr; omega), 1, exitKernel_owns hlt⟩

/-- The process, its task and its pages are in these blocks. -/
theorem exitKernel_pointer {p : Process} {t : Task} (hp : p.task = blockAddr 1)
    (ht : t.pageDirectory = blockAddr 2) (ha : ProcessPointer (blockAddr 0) p t (blockAddr 3)
      (fun i => blockAddr (100 + i)) a) : ∃ b, a = blockAddr b ∧ (b < 4 ∨ 100 ≤ b ∧ b < 1124) := by
  cases ha with
  | self => exact ⟨0, rfl, by decide⟩
  | task => exact ⟨1, hp, by decide⟩
  | chunk => exact ⟨2, ht, by decide⟩
  | directory => exact ⟨3, rfl, by decide⟩
  | @table i hi => exact ⟨100 + i, exitKernel_entry hi, by omega⟩

/-- The list of two tasks or of three. -/
theorem exitKernel_linked : ∀ third, Linked (taskCell (exitKernel third)) 0
    (blockAddr 1 :: exitOthers third) (blockAddr 1)
  | false => by
    have hnext : taskCell (exitKernel false) (blockAddr 10) = some (0, blockAddr 1) :=
      taskCell_eq (exitKernel_store 10)
    exact ⟨rfl, blockAddr_pos 1, _, taskCell_eq (exitKernel_store 1),
      rfl, blockAddr_pos 10, _, hnext, rfl⟩
  | true => by
    have hnext : taskCell (exitKernel true) (blockAddr 10) = some (blockAddr 11, blockAddr 1) :=
      taskCell_eq (exitKernel_store 10)
    have hlast : taskCell (exitKernel true) (blockAddr 11) = some (0, blockAddr 10) := by
      rw [taskCell, exitKernel_store 11]
      rfl
    exact ⟨rfl, blockAddr_pos 1, _, taskCell_eq (exitKernel_store 1),
      rfl, blockAddr_pos 10, _, hnext, rfl, blockAddr_pos 11, _, hlast, rfl⟩

/-- The other tasks have the pages in blocks 8 and 9. -/
theorem exitKernel_task : ∀ {third : Bool}, a ∈ exitOthers third →
    ∃ b t, a = blockAddr b ∧ 8 ≤ b ∧ b ≤ 11 ∧ t.pageDirectory = blockAddr 8 ∧
      (exitKernel third).store a = some (.task t)
  | false, ha => by
    obtain rfl := List.mem_singleton.mp ha
    exact ⟨10, _, rfl, by decide, by decide, rfl, exitKernel_store 10⟩
  | true, ha => by
    rcases List.mem_cons.mp ha with rfl | ha
    · exact ⟨10, _, rfl, by decide, by decide, rfl, exitKernel_store 10⟩
    · obtain rfl := List.mem_singleton.mp ha
      exact ⟨11, _, rfl, by decide, by decide, rfl, exitKernel_store 11⟩

/-- The others are those of other processes. -/
theorem exitKernel_otherTask (ha : a ∈ exitOthers third) :
    OtherTask exitLedger (exitKernel third) (blockAddr 0) a := by
  obtain ⟨b, t, rfl, hlo, hhi, ht, hs⟩ := exitKernel_task ha
  refine ⟨exitKernel_theirs hlo hhi,
    ⟨blockAddr_pos b, t, blockAddr 9, hs, ht ▸ blockAddr_pos 8, ?_⟩, fun q hq => ?_⟩
  · rw [ht]
    exact exitKernel_store 8
  · rw [hs] at hq
    cases hq
    rw [ht]
    exact exitKernel_theirs (by decide) (by decide)

/-- The first process may exit. -/
theorem exitKernel_exiting (third : Bool) : ∃ p t d f e, Exiting exitLedger (exitKernel third)
    (blockAddr 1 :: exitOthers third) (blockAddr 0) 0 p t d f e := by
  refine ⟨_, _, blockAddr 3, fun i => blockAddr (100 + i), fun _ => 0, {
    guarded := ⟨-1, by decide, by decide, by cases third <;> decide⟩
    resident := {
      at_process := ⟨blockAddr_pos 0, blockAddr_pos 1, exitKernel_store 0, exitKernel_store 1,
        exitKernel_maps⟩
      pid := rfl
      owner := rfl
      typed := trivial
      data := ?_
      stack := ?_
      owned := ?_ }
    recorded := ?_
    current := rfl
    nodup := by cases third <;> decide
    linked := exitKernel_linked third
    mem := List.mem_cons_self
    other := fun a ha hne => exitKernel_otherTask ((List.mem_cons.mp ha).resolve_left hne)
    elsewhere := fun _ => ⟨1, by decide, by decide, blockAddr_pos 12⟩ }⟩
  · rintro a (hd | hd | hd) ha
    · obtain rfl : blockAddr 5 = a := ProcessData.ptr.inj hd
      obtain ⟨b, he, hb⟩ := exitKernel_pointer rfl rfl ha
      have := blockAddr_inj.mp he
      omega
    · cases hd
    · cases hd
  · intro ha
    obtain ⟨b, he, hb⟩ := exitKernel_pointer rfl rfl ha
    have := blockAddr_inj.mp he
    omega
  · rintro a (hp | (hd | hd | hd) | -)
    · obtain ⟨b, rfl, hb⟩ := exitKernel_pointer rfl rfl hp
      exact exitKernel_mine (by omega) (by omega)
    · obtain rfl : blockAddr 5 = a := ProcessData.ptr.inj hd
      exact exitKernel_mine (by decide) (by decide)
    · cases hd
    · cases hd
    · exact exitKernel_mine (b := 6) (by decide) (by decide)
  · rintro a ⟨h0, i, -, rfl⟩
    exact absurd rfl h0

/-- With one other task, it has the turn. -/
theorem exit_keepsTurn_two : ∃ next after k₁ k₂, idtClock (exitKernel false) = some (next, k₁) ∧
    isr80hCommand9Exit (exitKernel false) = some (after, k₂) ∧ after = next := by
  obtain ⟨p, t, d, f, e, h⟩ := exitKernel_exiting false
  obtain ⟨next, after, k₁, k₂, -, hclock, hexit, hiff⟩ := exit_keepsTurn_iff h
    (List.nil_append ((exitKernel false).currentTask :: exitOthers false)).symm (by decide)
    List.mem_cons_self
  exact ⟨next, after, k₁, k₂, hclock, hexit, hiff.mpr rfl⟩

/-- With two others, the one after the process has no turn. -/
theorem exit_costs_turn : ∃ p t d f e, Exiting exitLedger (exitKernel true)
    [blockAddr 1, blockAddr 10, blockAddr 11] (blockAddr 0) 0 p t d f e ∧
    ∃ next after k₁ k₂, idtClock (exitKernel true) = some (next, k₁) ∧
      isr80hCommand9Exit (exitKernel true) = some (after, k₂) ∧ next = blockAddr 10 ∧
      after ≠ next := by
  obtain ⟨p, t, d, f, e, h⟩ := exitKernel_exiting true
  refine ⟨p, t, d, f, e, h, ?_⟩
  have hlive : [blockAddr 1, blockAddr 10, blockAddr 11] =
      [] ++ (exitKernel true).currentTask :: exitOthers true := rfl
  obtain ⟨next, k₁, hclock, hnext, -⟩ := Meets.exists_result (Q := _) ((h.turns hlive).next)
  obtain ⟨after, k₂, hexit, hafter⟩ := (h.exit_meets hlive (by decide)).exists_result
  refine ⟨next, after, k₁, k₂, hclock, hexit, hnext, ?_⟩
  rw [hafter _ _ rfl, hnext]
  exact show blockAddr 11 ≠ blockAddr 10 by decide

end Hyperion
