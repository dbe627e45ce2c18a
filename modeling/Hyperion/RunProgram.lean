import Hyperion.ArgumentInjection
import Hyperion.ImageKept
import Hyperion.LoadBytes
import Hyperion.LoadFailure
import Mathlib.Logic.Relation

/-!
# Starting a program with arguments

`isr80h_command7_invoke_system_command` loads the program, which registers the process and puts
its task in the list, and injects the arguments afterwards. When the load fails, the processes
and the tasks are as they were. When the injection fails, the process stays (`Launches`), so that
the call is all or nothing exactly if there is room for the arguments of what was loaded
(`invokeSystemCommand_allOrNothing_iff`).

What is there to be dispatched is what `task_next` comes to, again and again, from the current task
(`Kernel.Dispatchable`). Before the call no task that it comes to has been freed
(`Kernel.TasksInOrder`). A load that fails behind `task_new` has put its task into the list and
taken it out again, and the tasks that are come to are those from before.

Whether there is room is a question to the heap and the records behind the load
(`Kernel.HasRoomForArguments`) : it is not known before the program has been loaded, and the load
has no way back.
-/

namespace Hyperion

open Partial FreeRun

variable {k k' k₀ k₁ : Kernel} {a b d process root fuel slot : ℕ} {nodes : List ℕ}
  {filename : List UInt8} {res : Int} {v : ℕ}

/-! ## The tasks that can be dispatched -/

/-- The task that `task_get_next` answers while `task` is the current one. -/
def Kernel.nextTask (k : Kernel) (task : ℕ) : Option ℕ :=
  (taskGetNext { k with currentTask := task }).map Prod.fst

/-- `task_next`, again and again, gets to the task at `a`. -/
def Kernel.Dispatchable (k : Kernel) (a : ℕ) : Prop :=
  Relation.TransGen (fun task next => k.nextTask task = some next) k.currentTask a

/-- The last task of the list ends it, and no task that can be dispatched has been freed. -/
structure Kernel.TasksInOrder (k : Kernel) : Prop where
  head_ne : k.taskHead ≠ 0
  head_kept : ¬k.Fresh k.taskHead
  tail_ne : k.taskTail ≠ 0
  tail_kept : ¬k.Fresh k.taskTail
  tail_last : ∃ t, k.store k.taskTail = some (.task t) ∧ t.next = 0
  current_kept : ¬k.Fresh k.currentTask
  dispatchable_kept : ∀ a, k.Dispatchable a → ¬k.Fresh a

/-- The next task by cases on the pointer. -/
theorem Kernel.nextTask_eq (k : Kernel) (task : ℕ) : k.nextTask task =
    if task = 0 then none else
      match k.store task with
      | some (.task t) => some (if t.next = 0 then k.taskHead else t.next)
      | _ => none := by
  unfold nextTask taskGetNext getTask getObj
  simp only [run_bind, run_get, Option.bind_some]
  split_ifs with h0
  · rfl
  · cases k.store task with
    | none => rfl
    | some o =>
      cases o with
      | task t =>
        simp only [Option.map_some, Option.bind_some, run_pure]
        split_ifs <;> rfl
      | _ => rfl

/-- The structure of the task and the head of the list decide. -/
theorem Kernel.nextTask_congr (hs : a ≠ 0 → k'.store a = k.store a)
    (hh : k'.taskHead = k.taskHead) : k'.nextTask a = k.nextTask a := by
  rw [nextTask_eq, nextTask_eq, hh]
  split_ifs with h0
  · rfl
  · rw [hs h0]

/-- The table, the current process and the tasks that can be dispatched are the same. -/
structure TasksKept (k k' : Kernel) : Prop where
  processes : k'.processes = k.processes
  currentProcess : k'.currentProcess = k.currentProcess
  dispatchable : ∀ a, k'.Dispatchable a ↔ k.Dispatchable a

/-- The state without the directory that the CPU translates with. -/
def Kernel.withoutDirectory (k : Kernel) : Kernel := { k with currentDirectory := 0 }

/-- What is kept when nothing that was allocated changes. -/
theorem Kernel.TasksInOrder.kept (h : k.TasksInOrder)
    (hg : k'.globals.withoutDirectory = k.globals.withoutDirectory)
    (hs : ∀ a, a ≠ 0 → ¬k.Fresh a → k'.store a = k.store a) : TasksKept k k' := by
  have hfield {β : Type} (w : Kernel → β) :
      w k'.globals.withoutDirectory = w k.globals.withoutDirectory := congrArg w hg
  have hhead : k'.taskHead = k.taskHead := hfield Kernel.taskHead
  have hcur : k'.currentTask = k.currentTask := hfield Kernel.currentTask
  have hnext {a : ℕ} (hf : ¬k.Fresh a) : k'.nextTask a = k.nextTask a :=
    nextTask_congr (fun h0 => hs a h0 hf) hhead
  refine ⟨hfield Kernel.processes, hfield Kernel.currentProcess,
    fun a => ⟨fun ha => ?_, fun ha => ?_⟩⟩
  · induction ha with
    | single hab =>
      rw [hcur, hnext h.current_kept] at hab
      exact .single hab
    | tail _ hbc ih =>
      rw [hnext (h.dispatchable_kept _ ih)] at hbc
      exact ih.tail hbc
  · have hboth : k.Dispatchable a ∧ k'.Dispatchable a := by
      induction ha with
      | single hab =>
        refine ⟨.single hab, ?_⟩
        rw [← hnext h.current_kept, ← hcur] at hab
        exact .single hab
      | tail hb hbc ih =>
        refine ⟨hb.tail hbc, ?_⟩
        rw [← hnext (h.dispatchable_kept _ hb)] at hbc
        exact ih.2.tail hbc
    exact hboth.2

/-- The directory that the CPU translates with does not matter. -/
theorem Kernel.TasksInOrder.withDirectory (h : k.TasksInOrder) (d : ℕ) :
    Kernel.TasksInOrder { k with currentDirectory := d } where
  head_ne := h.head_ne
  head_kept := h.head_kept
  tail_ne := h.tail_ne
  tail_kept := h.tail_kept
  tail_last := h.tail_last
  current_kept := h.current_kept
  dispatchable_kept a ha := by
    have hkept : TasksKept k { k with currentDirectory := d } := h.kept rfl fun _ _ _ => rfl
    exact h.dispatchable_kept a ((hkept.dispatchable a).mp ha)

/-! ## A load that fails -/

/-- A task that was appended and taken out again leaves the list as it was. -/
theorem TaskRemoved.restores (h : TaskRemoved k k') (ht : k.TasksInOrder) :
    k.Extends k' ∧ k'.globals = k.globals := by
  obtain ⟨task, t, hf, hnext, hprev, hext, hglob⟩ := h
  have hend : k.listEnd = k.taskTail := if_neg ht.head_ne
  rw [hend] at hnext hprev hext
  have hzero : t.next = 0 := hnext.resolve_left ht.tail_kept
  obtain ⟨last, hlast, hlast0⟩ := ht.tail_last
  have hset := k.setNext_self hlast
  rw [hlast0] at hset
  rw [hzero, hset] at hext
  refine ⟨hext, ?_⟩
  have hhead : task ≠ k.taskHead := fun he => ht.head_kept (he ▸ hf)
  have hcur : task ≠ k.currentTask := fun he => ht.current_kept (he ▸ hf)
  have hh : k.globals.taskHead = k.taskHead := rfl
  have hc : k.globals.currentTask = k.currentTask := rfl
  rw [hglob, Kernel.unlinked, Kernel.withTask]
  simp only [hh, hc, if_neg ht.head_ne, if_neg hhead, if_neg hcur, if_true, hprev]
  rfl

/-- With the tasks in order a failed load leaves the globals. -/
theorem LoadFailed.restores (h : LoadFailed k b k') (ht : k.TasksInOrder) :
    k.Extends k' ∧ k'.globals = k.globals := by
  have hb := h.answers
  obtain ⟨p, ⟨hext, hglob⟩ | hrem⟩ := h.left
  · exact ⟨(hb.ext.put hb.fresh _).trans hext, hglob⟩
  · exact (hrem.since (hb.ext.put hb.fresh _) rfl).restores ht

/-! ## The handler -/

/-- The list that `isr80h_command7_invoke_system_command` fetches from the stack of its
caller. -/
def commandArguments : KernelM ℕ := do
  let k ← get
  let item ← taskGetStackItem k.currentTask 0
  taskVirtualAddressToPhysical k.currentTask item

/-- The command is the list of arguments and what is done with it. -/
theorem isr80hCommand7InvokeSystemCommand_eq (fuel : ℕ) :
    isr80hCommand7InvokeSystemCommand fuel = commandArguments >>= invokeSystemCommand fuel := by
  simp only [isr80hCommand7InvokeSystemCommand, commandArguments, bind_assoc]

section Fetch

variable {V : Type} {w : Kernel → V}

/-- To follow a pointer changes nothing. -/
theorem getObj_unchanged : Unchanged w (getObj a) := fun k o k' e => by
  unfold getObj at e
  split_ifs at e
  obtain ⟨o, -, he⟩ := Option.map_eq_some_iff.mp e
  cases he
  rfl

theorem getTask_unchanged : Unchanged w (getTask a) := getObj_unchanged.bind fun o => by
  cases o <;> first | exact .pure _ | exact .fault

theorem getChunk_unchanged : Unchanged w (getChunk a) := getObj_unchanged.bind fun o => by
  cases o <;> first | exact .pure _ | exact .fault

theorem getDirectory_unchanged : Unchanged w (getDirectory a) := getObj_unchanged.bind fun o => by
  cases o <;> first | exact .pure _ | exact .fault

theorem getTable_unchanged : Unchanged w (getTable a) := getObj_unchanged.bind fun o => by
  cases o <;> first | exact .pure _ | exact .fault

/-- To read an entry changes nothing. -/
theorem pagingGet_unchanged {virt : ℕ} : Unchanged w (pagingGet d virt) :=
  getDirectory_unchanged.bind fun _ => getTable_unchanged.bind fun _ => .pure _

/-- Nor does translation. -/
theorem pagingGetPhysicalAddress_unchanged {virt : ℕ} :
    Unchanged w (pagingGetPhysicalAddress d virt) := pagingGet_unchanged.bind fun _ => .pure _

theorem get_unchanged : Unchanged w (get : KernelM Kernel) := fun _ _ _ e => by
  cases e
  rfl

/-- A byte through page tables is only read. -/
theorem readVirtual_unchanged {virt : ℕ} : Unchanged w (readVirtual d virt) := by
  have hrest : Unchanged w (do
      let phys ← pagingGetPhysicalAddress d virt
      let k ← get
      return k.mem phys) :=
    pagingGetPhysicalAddress_unchanged.bind fun _ => get_unchanged.bind fun _ => .pure _
  exact pagingGet_unchanged.bind fun _ => .ite (Unchanged.fault.bind fun _ => hrest) hrest

/-- A switch changes the directory in use and no more. -/
theorem pagingSwitch_unchanged : Unchanged Kernel.withoutDirectory (pagingSwitch d) :=
  getChunk_unchanged.bind fun _ => .modify fun _ => rfl

/-- An item of the stack is read under the task's directory. -/
theorem taskGetStackItem_unchanged {task index : ℕ} :
    Unchanged Kernel.withoutDirectory (taskGetStackItem task index) := by
  refine getTask_unchanged.bind fun t => pagingSwitch_unchanged.bind fun _ =>
    getChunk_unchanged.bind fun directory => ?_
  refine readVirtual_unchanged.bind fun _ => readVirtual_unchanged.bind fun _ =>
    readVirtual_unchanged.bind fun _ => readVirtual_unchanged.bind fun _ => ?_
  exact .bind (get_unchanged.bind fun _ => pagingSwitch_unchanged) fun _ => .pure _

/-- To fetch the list changes the directory at most. -/
theorem commandArguments_unchanged : Unchanged Kernel.withoutDirectory commandArguments :=
  get_unchanged.bind fun _ => taskGetStackItem_unchanged.bind fun _ =>
    getTask_unchanged.bind fun _ => getChunk_unchanged.bind fun _ =>
      pagingGetPhysicalAddress_unchanged

end Fetch

/-- The call that fetches the list at `root` : what it leaves but for the directory. -/
theorem commandArguments_same (h : commandArguments k = some (root, k₀)) :
    k₀ = { k with currentDirectory := k₀.currentDirectory } := by
  have hsame := commandArguments_unchanged _ _ _ h
  have hk : k₀ = { k₀.withoutDirectory with currentDirectory := k₀.currentDirectory } := rfl
  rw [hk, hsame]
  rfl

/-- The program that the first argument at `root` names is loaded, into the process at `process`. -/
structure Launches (k : Kernel) (root process : ℕ) (k₁ : Kernel) : Prop where
  ne_zero : root ≠ 0
  name : k.mem root ≠ 0
  fits : (stringAt k.mem (maxPath - 1) root).length + 4 ≤ maxPath
  load : processLoadSwitch (drivePrefix ++ stringAt k.mem (maxPath - 1) root) k =
    some ((0, process), k₁)

namespace Launches

/-- What is launched is determined. -/
theorem unique (h : Launches k root process k₁) {process' : ℕ} {k₁' : Kernel}
    (h' : Launches k root process' k₁') : process' = process ∧ k₁' = k₁ := by
  have he := h'.load.symm.trans h.load
  rw [Option.some_inj, Prod.mk.injEq, Prod.mk.injEq] at he
  exact ⟨he.1.2, he.2⟩

/-- The list of arguments is still there. -/
theorem arguments (h : Launches k root process k₁) (hg : Guarded k.table)
    (hlist : ArgumentList k root nodes) : ArgumentList k₁ root nodes :=
  hlist.kept ((processLoadSwitch_keepsBytes hg).of_eq h.load rfl)

/-- What is left to do. -/
theorem run (h : Launches k root process k₁) (fuel : ℕ) : invokeSystemCommand fuel root k =
    (do
      let res ← processInjectArguments fuel process root
      if res < 0 then return .returned (errorPtr res)
      processEnter process : KernelM CommandEnd) k₁ := by
  have hno : ¬(root = 0 ∨ k.mem root = 0) := by
    rintro (h0 | h0)
    · exact h.ne_zero h0
    · exact h.name h0
  simp only [invokeSystemCommand, run_bind, run_get, Option.bind_some, if_neg hno,
    if_neg (not_lt.mpr h.fits), h.load, if_neg (lt_irrefl (0 : Int))]

/-- The process that was loaded is registered, and has no allocations. -/
theorem loaded (h : Launches k root process k₁) (hg : Guarded k.table) :
    process ≠ 0 ∧ (∃ slot, k.processes slot = 0 ∧ k₁.processes slot = process) ∧
      ∃ p t d f, Unallocated k₁ process p t d f := by
  obtain ⟨hneg, -⟩ | ⟨hneg, -⟩ | ⟨k₂, slot, p, t, d, f, e, -, hslot, hload, rfl⟩ :=
    (processLoadSwitch_meets hg).of_eq h.load
  · exact absurd hneg (lt_irrefl _)
  · exact absurd hneg (lt_irrefl _)
  · refine ⟨hload.at_process.ne_zero, ⟨slot, hslot.free, ?_⟩, p, t, d, f, ⟨e, ?_⟩, fun a ha => ?_,
      fun i _ => by rw [hload.allocations]⟩
    · show k₂.globals.processes slot = process
      rw [hload.globals]
      exact if_pos rfl
    · exact hload.at_process.congr fun _ _ => rfl
    · exact hload.allocState.pointers a ha

end Launches

/-- The handler ends with an error before there is a process, or there is one. -/
theorem invokeSystemCommand_meets (hg : Guarded k.table) (ht : k.TasksInOrder) :
    Meets False (invokeSystemCommand fuel root) k fun _ k' =>
      (k.Extends k' ∧ k'.globals = k.globals) ∨ ∃ process k₁, Launches k root process k₁ := by
  refine Meets.bind_iff.mpr (Meets.get_iff.mpr (Meets.ite_iff.mpr ⟨fun _ => ?_, fun hne => ?_⟩))
  · exact Meets.pure_iff.mpr (.inl ⟨.refl k, rfl⟩)
  · rw [not_or] at hne
    refine Meets.ite_iff.mpr ⟨fun _ => Meets.bind_iff.mpr (Meets.fault_iff.mpr not_false),
      fun hfits => ?_⟩
    refine .bind (Meets.self.and (processLoadSwitch_meets hg)) ?_
    rintro ⟨res, process⟩ k₁ ⟨hrun, ⟨hneg, rfl, -⟩ | ⟨hneg, -, b, hb⟩ |
      ⟨k₂, slot, p, t, d, f, e, hres, -⟩⟩
    · exact Meets.ite_iff.mpr ⟨fun _ => Meets.pure_iff.mpr (.inl ⟨.refl k₁, rfl⟩),
        fun h => absurd hneg h⟩
    · exact Meets.ite_iff.mpr ⟨fun _ => Meets.pure_iff.mpr (.inl (hb.restores ht)),
        fun h => absurd hneg h⟩
    · obtain rfl : res = 0 := hres
      exact Meets.self.mono fun _ _ _ => .inr ⟨process, k₁, hne.1, hne.2, not_lt.mp hfits, hrun⟩

/-- When the call returns an error, the table, the current process and the tasks are as before. -/
def AllOrNothing (fuel : ℕ) (k : Kernel) : Prop :=
  ∀ v k', isr80hCommand7InvokeSystemCommand fuel k = some (.returned v, k') → isErrPtr v = true →
    TasksKept k k'

/-- An injection that fails leaves the process. -/
theorem Launches.not_allOrNothing (hg : Guarded k.table)
    (hfetch : commandArguments k = some (root, k₀)) (h : Launches k₀ root process k₁)
    (hlist : ArgumentList k root nodes) (hfuel : nodes.length ≤ fuel)
    (hno : ¬k₁.HasRoomForArguments nodes.length) : ¬AllOrNothing fuel k := by
  intro hall
  have hk₀ := commandArguments_same hfetch
  have hg₀ : Guarded k₀.table := by
    rw [hk₀]
    exact hg
  obtain ⟨hp0, ⟨slot, hslot, hslot₁⟩, p, t, d, f, hp⟩ := h.loaded hg₀
  have hlist₀ : ArgumentList k₀ root nodes := hlist.kept (by rw [hk₀]; exact .of_eq rfl rfl)
  have hne : nodes ≠ [] := by
    rintro rfl
    cases hlist
    exact h.ne_zero rfl
  obtain ⟨res, k₂, hrun, hglob, ⟨-, hroom⟩ | ⟨rfl, -⟩⟩ :=
    (processInjectArguments_meets hp (h.arguments hg₀ hlist₀) hne hfuel).exists_result
  · exact hno hroom
  · have hcall : isr80hCommand7InvokeSystemCommand fuel k =
        some (.returned (errorPtr (-ENOMEM)), k₂) := by
      rw [isr80hCommand7InvokeSystemCommand_eq, run_bind, hfetch, Option.bind_some, h.run,
        run_bind, hrun, Option.bind_some, if_pos (show -ENOMEM < 0 by decide), run_pure]
    have hkept := (hall _ _ hcall (by decide)).processes
    have hsame : k₂.processes = k₁.processes := by
      show k₂.globals.processes = k₁.globals.processes
      rw [hglob]
    have hbefore : k.processes = k₀.processes := by rw [hk₀]
    have hbad := congrFun hkept slot
    rw [hsame, hslot₁, hbefore, hslot] at hbad
    exact hp0 hbad

/-- The run-program call is all or nothing exactly if there is room for the arguments in every
process that it loads. -/
theorem invokeSystemCommand_allOrNothing_iff (hg : Guarded k.table) (ht : k.TasksInOrder)
    (hfetch : commandArguments k = some (root, k₀))
    (hlist : ArgumentList k root nodes) (hfuel : nodes.length ≤ fuel) : AllOrNothing fuel k ↔
      ∀ process k₁, Launches k₀ root process k₁ → k₁.HasRoomForArguments nodes.length := by
  constructor
  · intro hall process k₁ h
    by_contra hno
    exact h.not_allOrNothing hg hfetch hlist hfuel hno hall
  · intro hroom v k' hcall _
    have hk₀ := commandArguments_same hfetch
    have hg₀ : Guarded k₀.table := by
      rw [hk₀]
      exact hg
    have ht₀ : k₀.TasksInOrder := by
      rw [hk₀]
      exact ht.withDirectory _
    rw [isr80hCommand7InvokeSystemCommand_eq, run_bind, hfetch, Option.bind_some] at hcall
    rcases (invokeSystemCommand_meets hg₀ ht₀).of_eq hcall with ⟨hext, hglob⟩ | ⟨process, k₁, h⟩
    · refine ht.kept ?_ fun a ha hf => ?_
      · rw [hglob, hk₀]
        rfl
      · rw [hk₀] at hext
        exact hext.store a ha hf
    · obtain ⟨-, -, p, t, d, f, hp⟩ := h.loaded hg₀
      have hlist₀ : ArgumentList k₀ root nodes := hlist.kept (by rw [hk₀]; exact .of_eq rfl rfl)
      have hne : nodes ≠ [] := by
        rintro rfl
        cases hlist
        exact h.ne_zero rfl
      obtain ⟨res, k₂, hrun, -, ⟨rfl, -⟩ | ⟨-, hno⟩⟩ :=
        (processInjectArguments_meets hp (h.arguments hg₀ hlist₀) hne hfuel).exists_result
      · -- the call goes to the task of the process
        rw [h.run, run_bind, hrun, Option.bind_some, if_neg (lt_irrefl 0)] at hcall
        obtain ⟨q, k₃, -, hcall⟩ := bind_eq_some.mp hcall
        obtain ⟨_, k₄, -, hcall⟩ := bind_eq_some.mp hcall
        cases hcall
      · exact absurd (hroom process k₁ h) hno

/-! ## A list in two blocks -/

/-- The volume with the text file `A`, and the first two blocks of the heap taken. -/
def reservedKernel : Kernel := { elfKernel 2 [120, 121] with
  heapTable := fun b =>
    if b = 0 then blockByte 2 0 else if b = 1 then blockByte 2 1 else blockFree }

/-- The link of argument `i` of `n`. The arguments lie four bytes apart. -/
def argumentLink (n i : ℕ) : ℕ := if i + 1 < n then blockAddr 0 + 4 * (i + 1) else 0

/-- The blocks of the list : the name `A` in front, a pointer to it at 8, and the links from 512
on. -/
def argumentByte (n j : ℕ) : UInt8 :=
  if j = 0 then 65
  else if j = 11 then 1
  else if j < 512 then 0
  else (wordBytes (argumentLink n ((j - 512) / 4))).getD ((j - 512) % 4) 0

/-- The state in which the task of the one process passes a list of `n` arguments. Its pages are
those of the memory. -/
def Kernel.commanding (n : ℕ) (k : Kernel) : Kernel := { k with
  store := fun a =>
    if a = 4096 then some (.chunk 8192)
    else if a = 8192 then some (.directory fun i => (12288 + i * 4096) ||| userPageFlags)
    else if 12288 ≤ a ∧ a < 12288 + 4194304 then
      some (.table fun j => ((a - 12288) / 4096 * 1024 + j) * 4096 ||| userPageFlags)
    else if a = 0x900000 then some (.process { Process.zero with task := 0x901000 })
    else if a = 0x901000 then some (.task { Task.zero with
      pageDirectory := 4096, process := 0x900000,
      registers := { Task.zero.registers with esp := blockAddr 0 + 8 } })
    else k.store a
  mem := fun a => if a < blockAddr 2 then argumentByte n (a - blockAddr 0) else k.mem a
  taskHead := 0x901000
  taskTail := 0x901000
  currentTask := 0x901000
  currentProcess := 0x900000
  processes := fun i => if i = 0 then 0x900000 else 0
  kernelChunk := 4096 }

/-- Without tasks they are in order. -/
theorem Kernel.commanding_tasksInOrder (n : ℕ) (k : Kernel) : (k.commanding n).TasksInOrder := by
  have hkept : ¬(k.commanding n).Fresh 0x901000 := by
    rintro ⟨b, -, he, -⟩
    unfold blockAddr heapAddress at he
    omega
  have hnext : (k.commanding n).nextTask 0x901000 = some 0x901000 := by
    rw [Kernel.nextTask_eq]
    rfl
  have hne : (0x901000 : ℕ) ≠ 0 := by decide
  refine ⟨hne, hkept, hne, hkept, ⟨_, rfl, rfl⟩, hkept, fun a ha => ?_⟩
  suffices h : a = 0x901000 from h ▸ hkept
  induction ha with
  | single h => exact (Option.some.inj (hnext.symm.trans h)).symm
  | tail _ h ih =>
    subst ih
    exact (Option.some.inj (hnext.symm.trans h)).symm

/-- Each argument links to the next. -/
theorem Kernel.commanding_next {n i : ℕ} (k : Kernel) (hi : i < n) (hn : n ≤ 1024) :
    commandArgumentNext (k.commanding n).mem (blockAddr 0 + 4 * i) = argumentLink n i := by
  refine word32_wordBytes (fun j hj => ?_) ?_
  · have hlt : blockAddr 0 + 4 * i + 512 + j < blockAddr 2 := by
      unfold blockAddr
      omega
    refine (if_pos hlt).trans ?_
    have hoff : blockAddr 0 + 4 * i + 512 + j - blockAddr 0 = 512 + (4 * i + j) := by omega
    have hdiv : (4 * i + j) / 4 = i := by omega
    have hmod : (4 * i + j) % 4 = j := by omega
    rw [hoff, argumentByte, if_neg (by omega), if_neg (by omega), if_neg (by omega),
      Nat.add_sub_cancel_left, hdiv, hmod]
  · unfold argumentLink blockAddr heapAddress
    split_ifs <;> omega

/-- The list, `m` arguments before its end. -/
theorem Kernel.commanding_arguments {n : ℕ} (k : Kernel) (hn : n ≤ 1024)
    (h0 : ¬k.table.IsFree 0) (h1 : ¬k.table.IsFree 1) : ∀ m i : ℕ, i + m = n →
    ArgumentList (k.commanding n) (if i < n then blockAddr 0 + 4 * i else 0)
      ((List.range' i m).map fun i => blockAddr 0 + 4 * i)
  | 0, i, hi => by
    rw [if_neg (by omega)]
    exact .nil
  | m + 1, i, hi => by
    have hlt : i < n := by omega
    have hrest := Kernel.commanding_arguments k hn h0 h1 m (i + 1) (by omega)
    rw [if_pos hlt]
    refine .cons (by unfold blockAddr heapAddress; omega) (fun j hj => ?_) ?_
    · by_cases hblock : 4 * i + j < 4096
      · refine ⟨0, by decide, h0, by omega, by omega⟩
      · refine ⟨1, by decide, h1, ?_, ?_⟩ <;> unfold blockAddr <;> omega
    · rw [k.commanding_next hlt hn]
      exact hrest

/-- What is looked at when the program has been loaded as far as its data. -/
structure CommandView where
  root : ℕ
  name : List UInt8
  guard : UInt8
  blocks : UInt8 × UInt8
  loaded : Int × ℕ
  tasks : ℕ × ℕ
  cell : Option (ℕ × ℕ)
  selfBlock : UInt8
  room : Bool
  file : Option ℕ
  deriving DecidableEq

/-- The buffer of the binary file of the process at `a`. -/
def Kernel.binaryAt (k : Kernel) (a : ℕ) : Option ℕ :=
  match k.store a with
  | some (.process p) =>
    match p.filetype, p.data with
    | .binary, .ptr b => some b
    | _, _ => none
  | _ => none

/-- What is looked at in the state. -/
def commandView (k : Kernel) : Option CommandView :=
  (commandArguments k).bind fun x => (processLoadStart smallPath x.2).map fun y => {
    root := x.1
    name := stringAt x.2.mem (maxPath - 1) x.1
    guard := k.heapTable (-1)
    blocks := (k.heapTable 0, k.heapTable 1)
    loaded := y.1
    tasks := (y.2.taskHead, y.2.taskTail)
    cell := taskCell y.2 0x901000
    selfBlock := y.2.heapTable 8
    room := (List.range 1100).all fun b => y.2.heapTable ((100 + b : ℕ) : Int) == blockFree
    file := y.2.binaryAt (blockAddr 8) }

/-- The data is loaded for `n` arguments. -/
def CommandingView (n : ℕ) : Prop :=
  (diskSearchAndInit reservedKernel).bind (fun x => commandView (x.2.commanding n)) =
    some ⟨blockAddr 0, [65], 0, (193, 1), (0, blockAddr 8), (0x901000, 0x901000), some (0, 0),
      193, true, some (blockAddr 22)⟩

instance (n : ℕ) : Decidable (CommandingView n) := inferInstanceAs (Decidable (_ = _))

theorem commandingView_one : CommandingView 1 := by decide +kernel

theorem commandingView_many : CommandingView maxProgramAllocations := by decide +kernel

/-- The data is loaded for one argument and for as many as there are allocation records. -/
theorem commanding_view : ∀ n ∈ [1, maxProgramAllocations], CommandingView n :=
  List.forall_mem_cons.mpr ⟨commandingView_one, List.forall_mem_singleton.mpr commandingView_many⟩

/-- A flat program with its data. -/
theorem Kernel.binaryAt_eq_some {a b : ℕ} (h : k.binaryAt a = some b) :
    ∃ p, k.store a = some (.process p) ∧ p.filetype = .binary ∧ p.data = .ptr b := by
  unfold binaryAt at h
  cases hs : k.store a with
  | none => simp [hs] at h
  | some o =>
    cases o with
    | process p =>
      cases ht : p.filetype <;> cases hd : p.data <;> simp [hs, ht, hd] at h
      exact ⟨p, rfl, ht, by rw [hd, h]⟩
    | _ => simp [hs] at h

/-- The call with `n` arguments has loaded the program. -/
structure Commanding (n : ℕ) (k k₀ k₁ : Kernel) : Prop where
  guarded : Guarded k.table
  tasks : k.TasksInOrder
  fetch : commandArguments k = some (blockAddr 0, k₀)
  arguments : ArgumentList k (blockAddr 0) ((List.range' 0 n).map fun i => blockAddr 0 + 4 * i)
  launches : Launches k₀ (blockAddr 0) (blockAddr 8) k₁
  room : 2 ≤ k₁.freeBlocks

/-- There are such states, with one argument and with as many as a process has records. -/
theorem exists_commanding {n : ℕ} (hn : n ∈ [1, maxProgramAllocations]) :
    ∃ k k₀ k₁, Commanding n k k₀ k₁ := by
  have hview := commanding_view n hn
  obtain ⟨⟨_, m⟩, -, hview⟩ := Option.bind_eq_some_iff.mp hview
  obtain ⟨⟨root, k₀⟩, hfetch, hview⟩ := Option.bind_eq_some_iff.mp hview
  obtain ⟨⟨⟨res, process⟩, k₂⟩, hstart, hview⟩ := Option.map_eq_some_iff.mp hview
  simp only [CommandView.mk.injEq, Prod.mk.injEq] at hview
  obtain ⟨rfl, hname, hguard, ⟨h0, h1⟩, ⟨rfl, rfl⟩, ⟨hhead, htail⟩, hcell, hself, hroom, hfile⟩ :=
    hview
  obtain ⟨p, hp, htype, hdata⟩ := Kernel.binaryAt_eq_some hfile
  have hk₀ := commandArguments_same hfetch
  have hslot : FirstFreeSlot k₀.processes 1 := by
    rw [hk₀]
    refine ⟨by decide, rfl, fun i hi => ?_⟩
    obtain rfl : i = 0 := by omega
    exact (show (0x900000 : ℕ) ≠ 0 by decide)
  have hready : LoadReady k₂ (blockAddr 8) p 100 := by
    refine ⟨blockAddr_pos 8, ?_, hp, ?_, ?_, fun _ => ⟨?_, ?_, ?_⟩,
      fun _ _ file hf => ?_, by decide,
      fun b hlo hhi => free_of_all hroom b hlo (by omega)⟩
    · rintro ⟨b, -, he, hf⟩
      obtain rfl := blockAddr_inj.mp he
      have hfree : k₂.heapTable 8 = blockFree := hf
      rw [hself] at hfree
      exact absurd hfree (by decide)
    · unfold Process.Typed
      rw [htype, hdata]
      trivial
    · intro h
      rw [htype] at h
      cases h
    · rw [htail]
      decide
    · rw [htail]
      rintro ⟨b, -, he, -⟩
      unfold blockAddr heapAddress at he
      omega
    · rw [htail]
      unfold taskCell at hcell
      split at hcell
      · exact ⟨_, by assumption⟩
      · cases hcell
    · rw [hdata] at hf
      cases hf
  obtain ⟨k', p', t, d, f, e, hrun, -, hcount⟩ := hready.loads smallPath 1
  have hmany : 1100 ≤ k₂.freeBlocks :=
    Kernel.le_freeBlocks (free_of_all hroom) (show 100 + 1100 ≤ heapTotalBlocks by decide)
  have hload : processLoad smallPath k₀ = some ((0, blockAddr 8), k') := by
    rw [processLoad_of_start hslot hstart, hrun]
  have hnofree {b : ℕ} {v : UInt8} (hb : (m.commanding n).heapTable b = v) (hv : v ≠ blockFree) :
      ¬m.table.IsFree b := fun hf => hv (hb.symm.trans hf)
  refine ⟨m.commanding n, k₀, { k' with currentProcess := blockAddr 8 }, ?_,
    m.commanding_tasksInOrder n, hfetch, ?_, ⟨blockAddr_pos 0, fun hz => ?_, ?_, ?_⟩, ?_⟩
  · refine ⟨-1, by decide, by decide, ?_⟩
    show (m.commanding n).heapTable (-1) &&& blockHasNext = 0
    rw [hguard]
    rfl
  · have hpos : 0 < n ∧ n ≤ 1024 := by
      simp only [List.mem_cons, List.not_mem_nil, or_false] at hn
      rcases hn with rfl | rfl <;> decide
    have hlist := m.commanding_arguments hpos.2 (hnofree h0 (by decide)) (hnofree h1 (by decide))
      n 0 (Nat.zero_add n)
    rwa [if_pos hpos.1] at hlist
  · rw [show maxPath - 1 = 106 + 1 from rfl, stringAt, if_pos hz] at hname
    cases hname
  · rw [hname]
    decide
  · rw [hname, show drivePrefix ++ [65] = smallPath from rfl]
    simp only [processLoadSwitch, run_bind, hload, Option.bind_some, processSwitch, if_true,
      run_modify, run_pure]
  · show 2 ≤ k'.freeBlocks
    omega

/-- One argument arrives, so no error leaves anything behind. -/
theorem invokeSystemCommand_allOrNothing_one :
    ∃ k k₀ k₁, Commanding 1 k k₀ k₁ ∧ AllOrNothing 1 k := by
  obtain ⟨k, k₀, k₁, h⟩ := exists_commanding (show 1 ∈ _ by decide)
  refine ⟨k, k₀, k₁, h, (invokeSystemCommand_allOrNothing_iff h.guarded h.tasks h.fetch h.arguments
    (by simp)).mpr fun process k₁' h' => ?_⟩
  obtain ⟨-, rfl⟩ := h.launches.unique h'
  exact ⟨by decide, h.room⟩

/-- As many arguments as there are records : the call fails, and the process stays. -/
theorem invokeSystemCommand_leaves_process :
    ∃ k k₀ k₁, Commanding maxProgramAllocations k k₀ k₁ ∧
      ¬AllOrNothing maxProgramAllocations k := by
  obtain ⟨k, k₀, k₁, h⟩ := exists_commanding (show maxProgramAllocations ∈ _ by decide)
  refine ⟨k, k₀, k₁, h, h.launches.not_allOrNothing h.guarded h.fetch h.arguments (by simp) ?_⟩
  rw [List.length_map, List.length_range']
  exact fun hroom => absurd hroom.1 (by decide)

end Hyperion
