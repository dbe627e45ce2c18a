import Hyperion.Isr80h

/-!
# The way out of the kernel

The kernel goes back to user mode by the `iretd` of the routine that was entered, or by
`task_return`. The current task is then the one that was interrupted, or the one that is returned
to, and the directory that is loaded is its own, whichever interrupt or system call it was
(`kernelEntry_leaves`). On the way to it

* `Blind` collects what no function on page tables, tasks and processes changes in a state that is
  looked at through some `w` : its instances are the global pointers (`KeepsPointers`) and the
  table of the heap, and `SystemRuns` adds the layout of the structures;
* `Kernel.Paged` is what is left by a switch of the task, and `Kernel.Tasked` what a load needs so
  as not to become the first task;
* a command either returns with the current task it was called in, or has switched to another
  (`CommandEnd.Leaves`), which each of the ten commands and three callbacks is shown for.

A handler that stops with undefined behaviour leaves nothing : `print` of a buffer that nobody has
written, and the store through the `prev` pointer of a task whose neighbour is gone. The store of
command 8 goes to the memory of the model only, so it is taken not to hit the kernel's own
variables.
-/

namespace Hyperion

open Partial

/-! ## What a space is changed by -/

/-- To read a process changes nothing. -/
theorem getProcess_unchanged {V : Type} {w : Kernel → V} {a : ℕ} : Unchanged w (getProcess a) :=
  getObj_unchanged.bind fun o => by
    cases o <;> first | exact .pure _ | exact .fault

/-- What `w` sees of the kernel is neither in the memory nor changed with a structure that becomes
one that `R` allows. The entries of page tables may become any. -/
structure Blind {V : Type} (R : Obj → Obj → Prop) (w : Kernel → V) : Prop where
  put : ∀ k a o o', k.store a = some o → R o o' → w (k.put a o') = w k
  table : ∀ f g, R (.table f) (.table g)
  directory : ∀ k d, w { k with currentDirectory := d } = w k
  bytes : ∀ k a bs, w (k.withBytes a bs) = w k

namespace Blind

variable {V : Type} {R : Obj → Obj → Prop} {w : Kernel → V} (h : Blind R w)
  {a d c virt phys physEnd flags : ℕ}
include h

/-- A change of a task that `R` allows. -/
theorem modifyTask {f : Task → Task} (hf : ∀ t, R (.task t) (.task (f t))) :
    Unchanged w (modifyTask a f) := fun k x k' e => by
  refine (?_ : Meets False (Hyperion.modifyTask a f) k fun _ k' => w k' = w k).of_eq e
  rw [Hyperion.modifyTask, Meets.bind_iff]
  refine Kernel.getTask_rule fun t h0 ht => ?_
  exact .of_run_eq (if_neg h0) (h.put k a _ _ ht (hf t))

/-- A change of a process that `R` allows. -/
theorem modifyProcess {f : Process → Process} (hf : ∀ p, R (.process p) (.process (f p))) :
    Unchanged w (modifyProcess a f) := fun k x k' e => by
  refine (?_ : Meets False (Hyperion.modifyProcess a f) k fun _ k' => w k' = w k).of_eq e
  rw [Hyperion.modifyProcess, Meets.bind_iff]
  refine Kernel.getProcess_rule False.elim fun p h0 hp => ?_
  exact .of_run_eq (if_neg h0) (h.put k a _ _ hp (hf p))

/-- An entry of a page table. -/
theorem setTableEntry {i v : ℕ} : Unchanged w (setTableEntry a i v) := fun k x k' e => by
  refine (?_ : Meets False (Hyperion.setTableEntry a i v) k fun _ k' => w k' = w k).of_eq e
  rw [Hyperion.setTableEntry, getTable, Meets.bind_iff, Meets.bind_iff]
  refine Kernel.getObj_rule False.elim fun o h0 ho => ?_
  cases o with
  | table f => exact Meets.pure_iff.mpr (.of_run_eq (if_neg h0) (h.put k a _ _ ho (h.table _ _)))
  | _ => exact Meets.fault_iff.mpr not_false

/-- Bytes of the memory. -/
theorem storeBytes {bs : List UInt8} : Unchanged w (storeBytes a bs) := fun k x k' e => by
  unfold Hyperion.storeBytes at e
  split_ifs at e
  cases e
  exact h.bytes k a bs

/-- The directory that the CPU translates with. -/
theorem pagingSwitch : Unchanged w (pagingSwitch d) :=
  getChunk_unchanged.bind fun _ => .modify fun k => h.directory k _

/-- The switch to the directory of the kernel. -/
theorem kernelPage : Unchanged w kernelPage := get_unchanged.bind fun _ => h.pagingSwitch

/-- An entry by its virtual address. -/
theorem pagingSet {v : ℕ} : Unchanged w (pagingSet d virt v) := by
  refine .ite (.pure _) ?_
  show Unchanged w (if _ then _ else _)
  refine .ite (.pure _) (getDirectory_unchanged.bind fun _ => ?_)
  exact h.setTableEntry.bind fun _ => .pure _

/-- One page. -/
theorem pagingMap : Unchanged w (pagingMap c virt phys flags) :=
  .ite (.pure _) (getChunk_unchanged.bind fun _ => h.pagingSet)

/-- As many pages as are left, by recursion on them. -/
theorem pagingMapRange : ∀ (count virt phys : ℕ),
    Unchanged w (pagingMapRange c virt phys count flags)
  | 0, _, _ => .pure _
  | count + 1, _, _ => h.pagingMap.bind fun _ => .ite (.pure _) (pagingMapRange count _ _)

/-- A range of pages. -/
theorem pagingMapTo : Unchanged w (pagingMapTo c virt phys physEnd flags) :=
  .ite (.pure _) (.ite (.pure _) (.ite (.pure _) (.ite (.pure _) (h.pagingMapRange _ _ _))))

/-- The characters of a string, one by one, through the page tables of its task. -/
theorem strncpyVirtual : ∀ (fuel tmp virt : ℕ), Unchanged w (strncpyVirtual d fuel tmp virt)
  | 0, _, _ => .pure _
  | fuel + 1, _, _ => readVirtual_unchanged.bind fun _ => .ite (.pure _)
    (h.storeBytes.bind fun _ => (strncpyVirtual fuel _ _).bind fun _ => .pure _)

/-- A string in the page that was borrowed for it, whose mapping is put back. -/
theorem copyToPage {tmp n : ℕ} : Unchanged w (copyToPage c virt tmp n) := by
  refine getChunk_unchanged.bind fun _ => pagingGet_unchanged.bind fun _ =>
    h.pagingMap.bind fun _ => ?_
  refine h.pagingSwitch.bind fun _ => (h.strncpyVirtual _ _ _).bind fun _ => ?_
  exact h.storeBytes.bind fun _ => h.kernelPage.bind fun _ => h.pagingSet.bind fun _ => .pure _

end Blind

/-! ## The global pointers -/

/-- The globals, as no allocation and no store changes them. -/
def Kernel.pointers (k : Kernel) : Kernel := k.globals.withoutDirectory

/-- Any structure may become any. -/
def AnyObj (_ _ : Obj) : Prop := True

/-- The global pointers are not in the memory and in no structure. -/
theorem Kernel.pointers_blind : Blind AnyObj Kernel.pointers where
  put _ _ _ _ _ _ := rfl
  table _ _ := trivial
  directory _ _ := rfl
  bytes _ _ _ := rfl

/-- The current task is one of the global pointers. -/
theorem Kernel.currentTask_of_pointers {k k' : Kernel} (h : k'.pointers = k.pointers) :
    k'.currentTask = k.currentTask :=
  show k'.pointers.currentTask = k.pointers.currentTask by rw [h]

/-- So is the head of the list. -/
theorem Kernel.taskHead_of_pointers {k k' : Kernel} (h : k'.pointers = k.pointers) :
    k'.taskHead = k.taskHead := show k'.pointers.taskHead = k.pointers.taskHead by rw [h]

/-- The table of the heap is not in the memory and in no structure either. -/
theorem Kernel.heapTable_blind : Blind AnyObj Kernel.heapTable where
  put _ _ _ _ _ _ := rfl
  table _ _ := trivial
  directory _ _ := rfl
  bytes _ _ _ := rfl

/-- No run of `m` changes the globals. -/
abbrev KeepsPointers {α : Type} (m : KernelM α) : Prop := Unchanged Kernel.pointers m

namespace KeepsPointers

variable {α β : Type} {m : KernelM α} {a size virt process task : ℕ} {o : Obj}

/-- What keeps all but the directory keeps the pointers. -/
theorem of_withoutDirectory (h : Unchanged Kernel.withoutDirectory m) : KeepsPointers m :=
  fun k x k' e => by
    have hk : k'.globals.withoutDirectory = k'.withoutDirectory.globals := rfl
    rw [Kernel.pointers, hk, h k x k' e]
    rfl

/-- As a contract about the current task. -/
theorem currentTask (h : KeepsPointers m) {k : Kernel} :
    Meets False m k fun _ k' => k'.currentTask = k.currentTask :=
  Meets.self.mono fun x k' e => Kernel.currentTask_of_pointers (h k x k' e)

/-- A process may be changed in any way. -/
theorem modifyProcess {f : Process → Process} : KeepsPointers (modifyProcess a f) :=
  Kernel.pointers_blind.modifyProcess fun _ => trivial

/-- Allocation changes the heap and memory only. -/
theorem kzalloc : KeepsPointers (kzalloc size) := fun k _ _ e =>
  (Kernel.kzalloc_rule (Q := fun _ k' => k'.pointers = k.pointers) rfl fun _ _ => rfl).of_eq e

/-- So does its opposite. -/
theorem kfree : KeepsPointers (kfree a) := .modify fun _ => rfl

/-- A string is copied from a task without a switch of the current one. -/
theorem copyStringFromTask {max : Int} : KeepsPointers (copyStringFromTask task virt max) := by
  rw [copyStringFromTask_eq]
  refine .ite (.pure _) (kzalloc.bind fun tmp =>
    .ite (.pure _) (getTask_unchanged.bind fun t => ?_))
  refine Kernel.pointers_blind.copyToPage.bind fun copied => ?_
  exact .ite (kfree.bind fun _ => .pure _) (kfree.bind fun _ => .pure _)

/-- Memory for a process. -/
theorem processMalloc : KeepsPointers (processMalloc process size) := by
  refine kzalloc.bind fun ptr => .ite (.pure _) (getProcess_unchanged.bind fun p => ?_)
  refine .ite (kfree.bind fun _ => .pure _) (getTask_unchanged.bind fun t => ?_)
  refine Kernel.pointers_blind.pagingMapTo.bind fun _ => .ite (kfree.bind fun _ => .pure _) ?_
  exact modifyProcess.bind fun _ => .pure _

/-- Memory of a process that is given back. -/
theorem processFree : KeepsPointers (processFree process a) := by
  refine getProcess_unchanged.bind fun p => ?_
  cases processGetAllocationByAddr p a with
  | none => exact .pure _
  | some allocation =>
    refine getTask_unchanged.bind fun t => Kernel.pointers_blind.pagingMapTo.bind fun _ => ?_
    exact .ite (.pure _) (modifyProcess.bind fun _ => kfree)

/-- A character is taken from the keyboard of the current process. -/
theorem keyboardPop : KeepsPointers keyboardPop := by
  refine get_unchanged.bind fun k => .ite (.pure _) (getTask_unchanged.bind fun t => ?_)
  refine getProcess_unchanged.bind fun p => .ite (.pure _) (modifyProcess.bind fun _ => ?_)
  exact modifyProcess.bind fun _ => .pure _

/-- A character is put to it. -/
theorem keyboardPush {c : UInt8} : KeepsPointers (keyboardPush c) := by
  refine get_unchanged.bind fun k => .ite (.pure _) (.ite (.pure _) ?_)
  exact getProcess_unchanged.bind fun p => modifyProcess.bind fun _ => modifyProcess

/-- The arguments are copied one by one, by recursion on the fuel. -/
theorem processInjectArgumentsLoop {argv : ℕ} : ∀ (fuel current i : ℕ),
    KeepsPointers (processInjectArgumentsLoop process argv fuel current i)
  | 0, _, _ => .ite (.pure _) .fault
  | fuel + 1, _, _ => .ite (.pure _) (processMalloc.bind fun _ => .ite (.pure _)
    (get_unchanged.bind fun _ => Kernel.pointers_blind.storeBytes.bind fun _ =>
      Kernel.pointers_blind.storeBytes.bind fun _ => get_unchanged.bind fun _ =>
        processInjectArgumentsLoop fuel _ _))

/-- A value that may be missing. -/
theorem defined {x : Option α} : KeepsPointers (defined x) := by
  cases x with
  | none => exact .fault
  | some _ => exact .pure _

/-- Arguments are given to a process. -/
theorem processInjectArguments {fuel root : ℕ} :
    KeepsPointers (processInjectArguments fuel process root) := by
  refine get_unchanged.bind fun k => defined.bind fun argc => .ite (.pure _) ?_
  refine processMalloc.bind fun argv => .ite (.pure _) ?_
  refine (processInjectArgumentsLoop _ _ _).bind fun res => .ite (.pure _) ?_
  exact modifyProcess.bind fun _ => .pure _

/-- An address is translated. -/
theorem taskVirtualAddressToPhysical : KeepsPointers (taskVirtualAddressToPhysical task virt) :=
  getTask_unchanged.bind fun _ => getChunk_unchanged.bind fun _ =>
    pagingGetPhysicalAddress_unchanged

end KeepsPointers

/-! ## The task that is returned to -/

/-- The directory that is loaded is that of the current task. -/
def Kernel.Paged (k : Kernel) : Prop :=
  k.currentTask ≠ 0 ∧ ∃ t, k.store k.currentTask = some (.task t) ∧
    k.store t.pageDirectory = some (.chunk k.currentDirectory)

variable {k : Kernel} {task : ℕ} {frame : InterruptFrame}

/-- A switch of the task loads the directory of the task that is current then. -/
theorem taskSwitch_paged : Meets False (taskSwitch task) k fun _ k' =>
    k'.Paged ∧ k'.currentTask = task := by
  simp only [taskSwitch, pagingSwitch, Meets.bind_iff, Meets.modify_iff]
  refine Kernel.getTask_rule fun t h0 ht => Kernel.getChunk_rule fun d _ hd => ?_
  exact ⟨⟨h0, t, ht, hd⟩, rfl⟩

/-- `task_page` loads the directory of the current task. -/
theorem taskPage_paged : Meets False taskPage k fun _ k' =>
    k'.Paged ∧ k'.currentTask = k.currentTask := by
  rw [taskPage, Meets.bind_iff, Meets.get_iff]
  exact taskSwitch_paged

/-- `task_next` answers the task it has switched to. -/
theorem taskNext_paged : Meets False taskNext k fun task k' =>
    k'.Paged ∧ k'.currentTask = task := by
  rw [taskNext, Meets.bind_iff]
  refine Meets.self.mono fun next k₁ _ => ?_
  simp only [Meets.ite_iff, Meets.bind_iff, Meets.pure_iff, panic, Meets.fault_iff]
  exact ⟨fun _ => not_false, fun _ => taskSwitch_paged⟩

/-- The task that a command leaves the kernel for by `task_return`. -/
def CommandEnd.left : CommandEnd → Option ℕ
  | .returned _ => none
  | .entered task => some task

/-- What is left of the kernel `k` when a command has ended. -/
def CommandEnd.Leaves (k k' : Kernel) : CommandEnd → Prop
  | .returned _ => k'.currentTask = k.currentTask
  | .entered task => k'.Paged ∧ k'.currentTask = task

/-- There are tasks, and the current one is not in free memory. -/
structure Kernel.Tasked (k : Kernel) : Prop where
  guarded : Guarded k.table
  head_ne : k.taskHead ≠ 0
  current : ¬k.Fresh k.currentTask

/-- Growth of the heap behind unchanged pointers. -/
theorem Kernel.Tasked.keeps {k' : Kernel} (h : k.Tasked) (hk : Keeps k.table k'.table)
    (hp : k'.pointers = k.pointers) : k'.Tasked := by
  have hhead := Kernel.taskHead_of_pointers hp
  have hcur := Kernel.currentTask_of_pointers hp
  refine ⟨hk.guarded h.guarded, hhead ▸ h.head_ne, fun hf => h.current ?_⟩
  rw [hcur] at hf
  exact hk.fresh hf

/-- A load goes on in the task that asked for it : there is one already, and it is not taken out
again. -/
theorem processLoadSwitch_currentTask {filename : List UInt8} (h : k.Tasked) :
    Meets False (processLoadSwitch filename) k fun _ k' => k'.currentTask = k.currentTask := by
  refine (processLoadSwitch_meets h.guarded).mono ?_
  rintro x k' (⟨-, rfl, -⟩ | ⟨-, -, b, hb⟩ | ⟨k₁, slot, p, t, d, f, e, -, -, hl, rfl⟩)
  · rfl
  · obtain ⟨p, ⟨-, hglob⟩ | ⟨task, t, hf, -, -, -, hglob⟩⟩ := hb.left
    · exact Kernel.currentTask_of_globals hglob
    · have hne : task ≠ k.currentTask := fun he => h.current (he ▸ hb.answers.ext.fresh hf)
      refine (congrArg Kernel.currentTask hglob).trans ?_
      show (if task = (if k.taskHead = 0 then task else k.currentTask) then _
        else if k.taskHead = 0 then task else k.currentTask) = _
      rw [if_neg h.head_ne, if_neg hne]
  · exact (congrArg Kernel.currentTask hl.globals).trans (if_neg h.head_ne)

/-- The page for the string is freed again. -/
theorem copyStringFromTask_keeps {virt : ℕ} {max : Int} (hg : Guarded k.table) :
    Meets False (copyStringFromTask task virt max) k fun _ k' => Keeps k.table k'.table := by
  have hsame {α : Type} {m : KernelM α} (h : Unchanged Kernel.heapTable m) {k₁ : Kernel} :
      Meets False m k₁ fun _ k₂ => k₂.heapTable = k₁.heapTable :=
    Meets.self.mono fun x k₂ e => h k₁ x k₂ e
  simp only [copyStringFromTask_eq, Meets.bind_iff, Meets.ite_iff, Meets.pure_iff]
  refine ⟨fun _ => .refl _, fun _ => ?_⟩
  refine Kernel.kzalloc_rule ⟨fun _ => .refl _, fun h => absurd rfl h⟩ fun b hb => ?_
  refine ⟨fun _ => (Keeps.refl _).allocated hb, fun _ => ?_⟩
  refine (hsame getTask_unchanged).mono fun t k₁ h₁ => ?_
  refine (hsame Kernel.heapTable_blind.copyToPage).mono fun copied k₂ h₂ => ?_
  have hfreed : Keeps k.table (k₂.release (blockAddr b)).table :=
    (((Keeps.refl _).allocated hb).of_heapTable (h₂.trans h₁)).release hg (.inr hb.fresh)
  exact ⟨fun _ => Meets.modify_iff.mpr hfreed, fun _ => Meets.modify_iff.mpr hfreed⟩

/-- A process is entered by a switch to its task. -/
theorem processEnter_leaves {process : ℕ} {k₀ : Kernel} :
    Meets False (processEnter process) k fun res k' => res.Leaves k₀ k' := by
  rw [processEnter, Meets.bind_iff]
  refine Meets.self.mono fun p k₁ _ => ?_
  rw [Meets.bind_iff]
  exact taskSwitch_paged.mono fun _ k₂ h => Meets.pure_iff.mpr h

/-- What is in the globals and the heap decides. -/
theorem Kernel.Tasked.unchanged {α : Type} {m : KernelM α} (h : k.Tasked) (hp : KeepsPointers m)
    (hheap : Unchanged Kernel.heapTable m) :
    Meets False m k fun _ k' => k'.Tasked ∧ k'.currentTask = k.currentTask :=
  Meets.self.mono fun x k' e => ⟨h.keeps ((Keeps.refl _).of_heapTable (hheap k x k' e))
    (hp k x k' e), Kernel.currentTask_of_pointers (hp k x k' e)⟩

/-- To fetch an item of the stack leaves the tasks. -/
theorem taskGetStackItem_tasked {index : ℕ} (h : k.Tasked) :
    Meets False (taskGetStackItem task index) k fun _ k' =>
      k'.Tasked ∧ k'.currentTask = k.currentTask := by
  refine h.unchanged (.of_withoutDirectory taskGetStackItem_unchanged) fun k x k' e => ?_
  show k'.withoutDirectory.heapTable = k.withoutDirectory.heapTable
  rw [taskGetStackItem_unchanged k x k' e]

/-- `isr80h_command6_process_load_start` enters the new process or comes back to the caller. -/
theorem isr80hCommand6_leaves (h : k.Tasked) :
    Meets False isr80hCommand6ProcessLoadStart k fun res k' => res.Leaves k k' := by
  simp only [isr80hCommand6ProcessLoadStart, Meets.bind_iff, Meets.get_iff]
  refine (taskGetStackItem_tasked h).mono ?_
  rintro item k₁ ⟨h₁, hcur₁⟩
  refine ((copyStringFromTask_keeps h₁.guarded).and_liberal Meets.self).mono ?_
  rintro ⟨res, filename⟩ k₂ ⟨hkeeps, hcopy⟩
  have hp₂ := KeepsPointers.copyStringFromTask k₁ _ k₂ hcopy
  have h₂ := h₁.keeps hkeeps hp₂
  have hcur₂ := (Kernel.currentTask_of_pointers hp₂).trans hcur₁
  simp only [Meets.ite_iff, Meets.bind_iff, Meets.pure_iff, Meets.fault_iff]
  refine ⟨fun _ => hcur₂, fun _ => ⟨fun _ => not_false, fun _ => ?_⟩⟩
  refine (processLoadSwitch_currentTask h₂).mono ?_
  rintro ⟨res, process⟩ k₃ hcur₃
  exact ⟨fun _ => hcur₃.trans hcur₂, fun _ => processEnter_leaves⟩

/-- So does `isr80h_command7_invoke_system_command` from the list of arguments on. -/
theorem invokeSystemCommand_leaves {fuel root : ℕ} (h : k.Tasked) :
    Meets False (invokeSystemCommand fuel root) k fun res k' => res.Leaves k k' := by
  simp only [invokeSystemCommand, Meets.bind_iff, Meets.get_iff, Meets.ite_iff, Meets.pure_iff,
    Meets.fault_iff]
  refine ⟨fun _ => rfl, fun _ => ⟨fun _ => not_false, fun _ => ?_⟩⟩
  refine (processLoadSwitch_currentTask h).mono ?_
  rintro ⟨res, process⟩ k₁ hcur₁
  refine ⟨fun _ => hcur₁, fun _ => ?_⟩
  refine KeepsPointers.processInjectArguments.currentTask.mono fun res k₂ hcur₂ => ?_
  exact ⟨fun _ => hcur₂.trans hcur₁, fun _ => processEnter_leaves⟩

/-- And with the list read from the stack of the caller. -/
theorem isr80hCommand7_leaves {fuel : ℕ} (h : k.Tasked) :
    Meets False (isr80hCommand7InvokeSystemCommand fuel) k fun res k' => res.Leaves k k' := by
  simp only [isr80hCommand7InvokeSystemCommand, Meets.bind_iff, Meets.get_iff]
  refine (taskGetStackItem_tasked h).mono ?_
  rintro item k₁ ⟨h₁, hcur₁⟩
  refine (Meets.self.mono fun root k₂ e => ?_ : Meets False (taskVirtualAddressToPhysical _ _) k₁ _)
  have hk : k₂ = k₁ := by
    have hsame :
        Unchanged (fun k : Kernel => k) (taskVirtualAddressToPhysical k.currentTask item) :=
      getTask_unchanged.bind fun _ => getChunk_unchanged.bind fun _ =>
        pagingGetPhysicalAddress_unchanged
    exact hsame k₁ root k₂ e
  subst hk
  refine (invokeSystemCommand_leaves h₁).mono fun res k₃ h₃ => ?_
  cases res with
  | returned => exact h₃.trans hcur₁
  | entered => exact h₃

/-- `isr80h_command8_get_program_arguments` stays in the current task. -/
theorem isr80hCommand8_currentTask :
    Meets False isr80hCommand8GetProgramArguments k fun _ k' => k'.currentTask = k.currentTask := by
  have hkeeps : KeepsPointers isr80hCommand8GetProgramArguments := by
    refine get_unchanged.bind fun _ => getTask_unchanged.bind fun _ => ?_
    refine (KeepsPointers.of_withoutDirectory taskGetStackItem_unchanged).bind fun _ => ?_
    refine Unchanged.bind (getTask_unchanged.bind fun _ => getChunk_unchanged.bind fun _ =>
      pagingGetPhysicalAddress_unchanged) fun arguments => ?_
    refine getProcess_unchanged.bind fun p => ?_
    have hstore {ws : List (ℕ × UInt8)} : KeepsPointers (do
        modify fun k => k.stored ws
        return ws) := Unchanged.bind (.modify fun _ => rfl) fun _ => .pure _
    exact hstore
  exact hkeeps.currentTask

/-- `isr80h_command9_exit` goes to the next task. -/
theorem isr80hCommand9_leaves :
    Meets False isr80hCommand9Exit k fun task k' => k'.Paged ∧ k'.currentTask = task := by
  rw [isr80hCommand9Exit, Meets.bind_iff]
  refine Meets.self.mono fun _ k₁ _ => ?_
  rw [Meets.bind_iff]
  refine Meets.self.mono fun _ k₂ _ => ?_
  rw [Meets.bind_iff]
  exact Meets.self.mono fun _ k₃ _ => taskNext_paged

/-- So does the handler of exceptions. -/
theorem idtHandleException_leaves :
    Meets False idtHandleException k fun task k' => k'.Paged ∧ k'.currentTask = task := by
  exact isr80hCommand9_leaves

/-! ## Interrupts and system calls -/

variable {s : System} {fuel command n : ℕ} {buf : LocalArray} {scancode : UInt8}

/-- Every command either returns in the task that it was called in, or has switched. -/
theorem Isr80hCommand.run_leaves (c : Isr80hCommand) (h : s.kernel.Tasked) :
    Meets False (c.run fuel buf) s fun res s' => res.Leaves s.kernel s'.kernel := by
  have hitem {task index : ℕ} : KeepsPointers (taskGetStackItem task index) :=
    .of_withoutDirectory taskGetStackItem_unchanged
  cases c with
  | command0Sum =>
    have hkeeps : KeepsPointers isr80hCommand0Sum :=
      get_unchanged.bind fun _ => hitem.bind fun _ => hitem.bind fun _ => .pure _
    simp only [Isr80hCommand.run, Meets.bind_iff, inKernel_meets, Meets.pure_iff]
    exact hkeeps.currentTask
  | command1Print =>
    have hkeeps : KeepsPointers (isr80hCommand1Print buf) := get_unchanged.bind fun _ =>
      hitem.bind fun _ => KeepsPointers.copyStringFromTask.bind fun _ => .ite (.pure _) (.pure _)
    simp only [Isr80hCommand.run, Meets.bind_iff, inKernel_meets]
    refine hkeeps.currentTask.mono fun str k' hcur => ?_
    cases str with
    | none => exact Meets.fault_iff.mpr not_false
    | some str => exact Meets.bind_iff.mpr (Meets.modify_iff.mpr (Meets.pure_iff.mpr hcur))
  | command2Getkey =>
    have hkeeps : KeepsPointers isr80hCommand2Getkey :=
      KeepsPointers.keyboardPop.bind fun _ => .pure _
    simp only [Isr80hCommand.run, Meets.bind_iff, inKernel_meets, Meets.pure_iff]
    exact hkeeps.currentTask
  | command3Putchar =>
    simp only [Isr80hCommand.run, isr80hCommand3Putchar, Meets.bind_iff, inKernel_meets,
      Meets.get_iff, Meets.modify_iff, Meets.pure_iff]
    exact hitem.currentTask
  | command4Malloc =>
    have hkeeps : KeepsPointers isr80hCommand4Malloc := get_unchanged.bind fun _ =>
      hitem.bind fun _ => getTask_unchanged.bind fun _ => KeepsPointers.processMalloc
    simp only [Isr80hCommand.run, Meets.bind_iff, inKernel_meets, Meets.pure_iff]
    exact hkeeps.currentTask
  | command5Free =>
    have hkeeps : KeepsPointers isr80hCommand5Free := get_unchanged.bind fun _ =>
      hitem.bind fun _ => getTask_unchanged.bind fun _ => KeepsPointers.processFree
    simp only [Isr80hCommand.run, Meets.bind_iff, inKernel_meets, Meets.pure_iff]
    exact hkeeps.currentTask
  | command6ProcessLoadStart => exact inKernel_meets.mpr (isr80hCommand6_leaves h)
  | command7InvokeSystemCommand => exact inKernel_meets.mpr (isr80hCommand7_leaves h)
  | command8GetProgramArguments =>
    simp only [Isr80hCommand.run, Meets.bind_iff, inKernel_meets, Meets.pure_iff]
    exact isr80hCommand8_currentTask
  | command9Exit =>
    simp only [Isr80hCommand.run, Meets.bind_iff, inKernel_meets, Meets.pure_iff]
    exact isr80hCommand9_leaves

/-- What brings the CPU into the kernel. -/
inductive KernelEntry
  | interrupt (scancode : UInt8) (n : ℕ)
  | systemCall (command : ℕ)

/-- The handler, with the task that it leaves the kernel for by `task_return`. -/
def KernelEntry.run (fuel : ℕ) (buf : LocalArray) (frame : InterruptFrame) :
    KernelEntry → SystemM (Option ℕ)
  | .interrupt scancode n => interruptHandler scancode n frame
  | .systemCall command => do return (← isr80hHandler fuel buf command frame).left

/-- The directory of the kernel is loaded on the way in. -/
theorem kernelPage_tasked (h : k.Tasked) : Meets False kernelPage k fun _ k' =>
    k'.Tasked ∧ k'.currentTask = k.currentTask :=
  h.unchanged Kernel.pointers_blind.kernelPage Kernel.heapTable_blind.kernelPage

/-- Only the registers of a task are stored. -/
theorem Blind.taskCurrentSaveState {V : Type} {R : Obj → Obj → Prop} {w : Kernel → V}
    (h : Blind R w) (hregisters : ∀ t registers,
      R (.task t) (.task { t with registers := registers })) :
    Unchanged w (taskCurrentSaveState frame) := by
  have hsave {task : ℕ} : Unchanged w (taskSaveState task frame) :=
    h.modifyTask fun t => hregisters t _
  exact get_unchanged.bind fun k => .ite (Unchanged.fault.bind fun _ => hsave) hsave

/-- The registers of the task are saved. -/
theorem taskCurrentSaveState_keepsPointers : KeepsPointers (taskCurrentSaveState frame) :=
  Kernel.pointers_blind.taskCurrentSaveState fun _ _ => trivial

/-- There is still a task when they are. -/
theorem taskCurrentSaveState_tasked (h : k.Tasked) :
    Meets False (taskCurrentSaveState frame) k fun _ k' =>
      k'.Tasked ∧ k'.currentTask = k.currentTask :=
  h.unchanged taskCurrentSaveState_keepsPointers
    (Kernel.heapTable_blind.taskCurrentSaveState fun _ _ => trivial)

/-- A command that has returned goes back to its task, one that has entered another stays there. -/
theorem isr80hReturn_leaves (res : CommandEnd) (h : res.Leaves k s.kernel) :
    Meets False (isr80hReturn res) s fun res s' => s'.kernel.Paged ∧
      s'.kernel.currentTask = res.left.getD k.currentTask := by
  cases res with
  | entered task => exact Meets.pure_iff.mpr h
  | returned v =>
    simp only [isr80hReturn, Meets.bind_iff, inKernel_meets, Meets.pure_iff]
    exact taskPage_paged.mono fun _ k' hk' => ⟨hk'.1, hk'.2.trans h⟩

/-- Every system call, from the routine that was entered to the way out. -/
theorem isr80hHandler_leaves (h : s.kernel.Tasked) :
    Meets False (isr80hHandler fuel buf command frame) s fun res s' => s'.kernel.Paged ∧
      s'.kernel.currentTask = res.left.getD s.kernel.currentTask := by
  simp only [isr80hHandler, Meets.bind_iff, inKernel_meets]
  refine (kernelPage_tasked h).mono ?_
  rintro _ k₁ ⟨h₁, hcur₁⟩
  refine (taskCurrentSaveState_tasked h₁).mono ?_
  rintro _ k₂ ⟨h₂, hcur₂⟩
  rw [← hcur₁, ← hcur₂]
  have hcommand : Meets False (isr80hHandleCommand fuel buf command) { s with kernel := k₂ }
      fun res s' => res.Leaves k₂ s'.kernel := by
    rw [isr80hHandleCommand, Meets.bind_iff, Meets.get_iff]
    refine Meets.ite_iff.mpr ⟨fun _ => Meets.pure_iff.mpr rfl, fun _ => ?_⟩
    cases s.idt.isr80hCommands (asSigned command).toNat with
    | none => exact Meets.pure_iff.mpr rfl
    | some c => exact c.run_leaves (s := { s with kernel := k₂ }) h₂
  exact hcommand.mono fun res s' hres => isr80hReturn_leaves res hres

/-- A key does not switch the task. -/
theorem classicKeyboard_currentTask :
    Meets False (classicKeyboardHandleInterrupt scancode) s fun _ s' =>
      s'.kernel.currentTask = s.kernel.currentTask := by
  have hkey {s : System} : Meets False (classicKeyboardPushKey scancode) s fun _ s' =>
      s'.kernel.currentTask = s.kernel.currentTask := by
    rw [classicKeyboardPushKey, Meets.bind_iff, Meets.get_iff]
    cases classicKeyboardScancodeToChar s.capslockState scancode with
    | none => exact Meets.fault_iff.mpr not_false
    | some c =>
      simp only [Meets.ite_iff, Meets.bind_iff, inKernel_meets]
      refine ⟨fun _ => KeepsPointers.keyboardPush.currentTask.mono fun _ k₁ h₁ => ?_, fun _ => ?_⟩
      · exact taskPage_paged.mono fun _ k₂ h₂ => h₂.2.trans h₁
      · exact taskPage_paged.mono fun _ k₁ h₁ => h₁.2
  simp only [classicKeyboardHandleInterrupt, Meets.bind_iff, inKernel_meets, Meets.ite_iff,
    Meets.pure_iff, Meets.modify_iff]
  have hpage : KeepsPointers kernelPage := Kernel.pointers_blind.kernelPage
  refine hpage.currentTask.mono fun _ k₁ h₁ => ?_
  refine ⟨fun _ => h₁, fun _ => ⟨fun _ => ?_, fun _ => ?_⟩⟩
  · exact hkey.mono fun _ s' h => h.trans h₁
  · exact hkey.mono fun _ s' h => h.trans h₁

/-- Each of the three callbacks either returns with the current task as it was or has switched. -/
theorem InterruptCallback.run_leaves (c : InterruptCallback) :
    Meets False (c.run scancode) s fun left s' => (left ≠ none → s'.kernel.Paged) ∧
      s'.kernel.currentTask = left.getD s.kernel.currentTask := by
  cases c with
  | idtHandleException =>
    simp only [InterruptCallback.run, Meets.bind_iff, inKernel_meets, Meets.pure_iff]
    exact idtHandleException_leaves.mono fun _ _ h => ⟨fun _ => h.1, h.2⟩
  | idtClock =>
    simp only [InterruptCallback.run, Meets.bind_iff, inKernel_meets, Meets.pure_iff]
    exact taskNext_paged.mono fun _ _ h => ⟨fun _ => h.1, h.2⟩
  | classicKeyboardHandleInterrupt =>
    simp only [InterruptCallback.run, Meets.bind_iff, Meets.pure_iff]
    exact classicKeyboard_currentTask.mono fun _ _ h => ⟨fun hne => absurd rfl hne, h⟩

/-- Every interrupt, with a callback or without. -/
theorem interruptHandler_leaves :
    Meets False (interruptHandler scancode n frame) s fun left s' => s'.kernel.Paged ∧
      s'.kernel.currentTask = left.getD s.kernel.currentTask := by
  simp only [interruptHandler, Meets.bind_iff, inKernel_meets, Meets.get_iff]
  have hpage : KeepsPointers kernelPage := Kernel.pointers_blind.kernelPage
  refine hpage.currentTask.mono fun _ k₁ h₁ => ?_
  rw [← h₁]
  have hback (left : Option ℕ) (s₁ : System) (hp : left ≠ none → s₁.kernel.Paged)
      (hcur : s₁.kernel.currentTask = left.getD k₁.currentTask) :
      Meets False (if left = none then do
        inKernel taskPage
        return left
      else return left : SystemM (Option ℕ)) s₁ fun left s' => s'.kernel.Paged ∧
        s'.kernel.currentTask = left.getD k₁.currentTask := by
    simp only [Meets.ite_iff, Meets.bind_iff, inKernel_meets, Meets.pure_iff]
    refine ⟨fun _ => taskPage_paged.mono fun _ k₂ h₂ => ⟨h₂.1, h₂.2.trans hcur⟩,
      fun hne => ⟨hp hne, hcur⟩⟩
  cases s.idt.interruptCallbacks n with
  | none =>
    have hnone := hback none { s with kernel := k₁ } (fun h => absurd rfl h) rfl
    exact Meets.bind_iff.mpr (Meets.pure_iff.mpr hnone)
  | some callback =>
    simp only [Meets.bind_iff, inKernel_meets]
    refine taskCurrentSaveState_keepsPointers.currentTask.mono fun _ k₂ h₂ => ?_
    refine (callback.run_leaves (s := { s with kernel := k₂ })).mono fun left s₃ h₃ => ?_
    exact hback left s₃ h₃.1 (h₃.2.trans (congrArg left.getD h₂))

/-- Whatever brings the CPU into the kernel, it leaves with the directory of the current task :
the task that was interrupted, or the one that `task_return` goes to. -/
theorem kernelEntry_leaves {entry : KernelEntry} {s s' : System} {left : Option ℕ}
    (h : s.kernel.Tasked) (he : entry.run fuel buf frame s = some (left, s')) :
    s'.kernel.Paged ∧ s'.kernel.currentTask = left.getD s.kernel.currentTask := by
  cases entry with
  | interrupt scancode n => exact interruptHandler_leaves.of_eq he
  | systemCall command =>
    obtain ⟨res, s₁, hrun, hres⟩ := bind_eq_some.mp he
    have hleaves := (isr80hHandler_leaves h).of_eq hrun
    cases hres
    exact hleaves

/-- The system of one task, with the clock. -/
def clockSystem : System := { mallocSystem with
  kernel := { mallocSystem.kernel with taskHead := 0x901000 }
  idt := { mallocSystem.idt with
    interruptCallbacks := fun n => if n = 0x20 then some .idtClock else none } }

/-- It has a task, which is not in free memory. -/
theorem clockSystem_tasked : clockSystem.kernel.Tasked where
  guarded := ⟨-1, by decide, by decide, rfl⟩
  head_ne := by decide
  current := by
    rintro ⟨b, -, hb, -⟩
    have hb : 0x901000 = blockAddr b := hb
    unfold blockAddr heapAddress at hb
    omega

/-- A tick goes back to the task by `task_return`, and a call of `malloc` by the routine that was
entered. -/
theorem kernelEntry_leaves_tick :
    (∃ s', (KernelEntry.interrupt 0 0x20).run 0 (.fresh fun _ => 0)
      (frameOf mallocCpu 0x400020 0x600000) clockSystem = some (some 0x901000, s') ∧
        s'.kernel.Paged ∧ s'.kernel.currentTask = 0x901000) ∧
    ∃ s', (KernelEntry.systemCall 4).run 0 (.fresh fun _ => 0)
      (frameOf mallocCpu 0x400020 0x600000) clockSystem = some (none, s') ∧
        s'.kernel.Paged ∧ s'.kernel.currentTask = 0x901000 := by
  obtain ⟨s₁, htick⟩ : ∃ s', (KernelEntry.interrupt 0 0x20).run 0 (.fresh fun _ => 0)
      (frameOf mallocCpu 0x400020 0x600000) clockSystem = some (some 0x901000, s') := ⟨_, rfl⟩
  obtain ⟨s₂, hcall⟩ : ∃ s', (KernelEntry.systemCall 4).run 0 (.fresh fun _ => 0)
      (frameOf mallocCpu 0x400020 0x600000) clockSystem = some (none, s') := ⟨_, rfl⟩
  exact ⟨⟨s₁, htick, kernelEntry_leaves clockSystem_tasked htick⟩,
    s₂, hcall, kernelEntry_leaves clockSystem_tasked hcall⟩

end Hyperion
