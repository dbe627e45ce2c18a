import Hyperion.ProcessLives

/-!
# Runs of the system

The programs that the kernel loads run, write to their memory, call the kernel and are
interrupted, in any order. In every state of such a run the table of processes is consistent and
the memory is divided between the processes (`system_run_divided`).

What keeps them is shown in three layers :

* functions that leave the layout of the structures (`KeepsLayout`), most of them because they
  change a structure only in a way that `layout` does not see (`Kernel.layout_blind`);
* the system calls and the callbacks of the interrupts, which end in a state of living processes if
  they begin in one (`Isr80hCommand.run_alive`, `InterruptCallback.run_alive`);
* the steps of a run (`SystemStep.alive`).

The kernel trusts its programs and itself with more than it checks, and a run is taken to keep to
it (`SystemEvent.Sound`) :

* programs write to the data, the stack and the allocations of their processes only, and so does
  the store of command 8, which goes wherever the program says;
* what is printed stays below the image of the kernel, since nothing scrolls;
* `malloc` is not asked for 0 bytes;
* the `prev` pointer of a task that ends, and the tail of the list when a task is added, lead to
  the task of a process in the table, if anywhere : through others the kernel stores into memory
  that has been given away;
* `task_next` goes to the task of a process in the table.
-/

namespace Hyperion

open Partial

variable {k k' : Kernel} {process task a n : ℕ} {o o' : Obj}

/-! ## Functions that keep the layout -/

/-- No run of `m` changes the heap, the table of processes or the layout. -/
abbrev KeepsLayout {α : Type} (m : KernelM α) : Prop := Unchanged Kernel.layout m

/-- No run of `m` ends a process. -/
abbrev KeepsAlive {α : Type} (m : KernelM α) : Prop :=
  Stays (fun k k' : Kernel => k.Alive → k'.Alive) m

/-- A structure may become another that looks the same. -/
theorem Kernel.put_layout (ho : k.store a = some o) (hl : o'.layout = o.layout) :
    (k.put a o').layout = k.layout := by
  have hstore : (fun b => ((k.put a o').store b).map Obj.layout) =
      fun b => (k.store b).map Obj.layout := by
    funext b
    rw [Kernel.put_store]
    split_ifs with hb
    · rw [hb, ho, Option.map_some, Option.map_some, hl]
    · rfl
  exact congrArg (fun store => ({ k.layout with store := store } : Kernel)) hstore

/-- A structure that looks the same. -/
def Obj.SameLayout (o o' : Obj) : Prop := o'.layout = o.layout

/-- The layout is not in the memory, and not in the entries of page tables. -/
theorem Kernel.layout_blind : Blind Obj.SameLayout Kernel.layout where
  put _ _ _ _ ho hl := Kernel.put_layout ho hl
  table _ _ := rfl
  directory _ _ := rfl
  bytes _ _ _ := rfl

namespace KeepsLayout

variable {α : Type} {m : KernelM α} {frame : InterruptFrame}

/-- A function that changes nothing but the directory in use. -/
theorem of_withoutDirectory (h : Unchanged Kernel.withoutDirectory m) : KeepsLayout m :=
  fun k x k' e => by
    show k'.withoutDirectory.layout = k.withoutDirectory.layout
    rw [h k x k' e]

/-- An item of a task's stack is read through its page tables. -/
theorem taskGetStackItem {index : ℕ} : KeepsLayout (taskGetStackItem task index) :=
  .of_withoutDirectory taskGetStackItem_unchanged

/-- A switch of the task is a change of two globals. -/
theorem taskSwitch : KeepsLayout (taskSwitch task) :=
  Unchanged.bind (.modify fun _ => rfl) fun _ => getTask_unchanged.bind fun _ =>
    Kernel.layout_blind.pagingSwitch

/-- The directory of the current task is loaded. -/
theorem taskPage : KeepsLayout taskPage := get_unchanged.bind fun _ => taskSwitch

/-- The next task is switched to. -/
theorem taskNext : KeepsLayout taskNext := by
  have hnext : KeepsLayout taskGetNext := get_unchanged.bind fun k =>
    getTask_unchanged.bind fun t => .ite (.pure _) (.pure _)
  have hswitch {next : ℕ} : KeepsLayout (do
      Hyperion.taskSwitch next
      return next) := taskSwitch.bind fun _ => .pure _
  exact hnext.bind fun next => .ite (Unchanged.fault.bind fun _ => hswitch) hswitch

/-- Registers are not in the layout. -/
theorem taskCurrentSaveState : KeepsLayout (taskCurrentSaveState frame) :=
  Kernel.layout_blind.taskCurrentSaveState fun _ _ => rfl

/-- The keys that wait are not part of the layout. -/
theorem setKeyboard {b : Process → KeyboardBuffer} :
    KeepsLayout (modifyProcess a fun p => { p with keyboard := b p }) :=
  Kernel.layout_blind.modifyProcess fun _ => rfl

/-- A key is put to a process. -/
theorem keyboardPush {c : UInt8} : KeepsLayout (keyboardPush c) := by
  refine get_unchanged.bind fun k => .ite (.pure _) (.ite (.pure _) ?_)
  exact getProcess_unchanged.bind fun p => setKeyboard.bind fun _ => setKeyboard

/-- And taken from it. -/
theorem keyboardPop : KeepsLayout keyboardPop := by
  refine get_unchanged.bind fun k => .ite (.pure _) (getTask_unchanged.bind fun t => ?_)
  refine getProcess_unchanged.bind fun p => .ite (.pure _) ?_
  exact setKeyboard.bind fun _ => setKeyboard.bind fun _ => .pure _

end KeepsLayout

/-! ## System calls -/

section Calls

variable {s : System} {fuel : ℕ} {buf : LocalArray}

/-- The copy is made through a page that is freed again. -/
theorem copyStringFromTask_keepsAlive {virt : ℕ} {max : Int} :
    KeepsAlive (copyStringFromTask task virt max) := fun k x k' e hk => by
  refine (?_ : Meets False (copyStringFromTask task virt max) k fun _ k' => k'.Alive).of_eq e
  simp only [copyStringFromTask_eq, Meets.bind_iff, Meets.ite_iff, Meets.pure_iff]
  refine ⟨fun _ => hk, fun _ => ?_⟩
  refine Kernel.kzalloc_rule ⟨fun _ => hk, fun h => absurd rfl h⟩ fun b hb => ?_
  set k₀ := k.allocated b (asUnsigned max) with hk₀
  have hsame {α : Type} {m : KernelM α} (h : KeepsLayout m) (hp : KeepsPointers m) {k₁ : Kernel} :
      Meets False m k₁ fun _ k₂ => k₂.layout = k₁.layout ∧ k₂.pointers = k₁.pointers :=
    Meets.self.mono fun x k₂ e => ⟨h k₁ x k₂ e, hp k₁ x k₂ e⟩
  have hfreed {k₁ : Kernel} (hl : k₁.layout = k₀.layout) (hp : k₁.pointers = k₀.pointers) :
      (k₁.release (blockAddr b)).Alive := by
    have hheap : k₁.heapTable = k₀.heapTable := Kernel.heapTable_of_layout hl
    have hkeeps (hg : Guarded k.table) : Keeps k.table (k₁.release (blockAddr b)).table :=
      (((Keeps.refl _).allocated hb).of_heapTable hheap).release hg (.inr hb.fresh)
    obtain ⟨L, hL⟩ := hk.populated
    refine hk.frame (fun hg => (hkeeps hg).guarded hg) (fun a n ho => ?_) (fun a n ho => ?_)
      (show k₁.processes = k₀.processes from Kernel.processes_of_layout hl)
      (show k₁.currentProcess = k₀.currentProcess from Kernel.currentProcess_of_layout hl)
      fun _ => show k₁.currentTask = k₀.currentTask from Kernel.currentTask_of_pointers hp
    · refine Kernel.SamePlace.trans (.of_eq (hb.ext.store_of_owns ho)) ?_
      refine Kernel.SamePlace.trans (.of_layout hl) (.of_eq ?_)
      rw [Kernel.release_store, if_neg fun (he : a = blockAddr b) => ho.not_fresh (he ▸ hb.fresh)]
    · obtain ⟨c, rfl, hc⟩ := ho
      exact ⟨c, rfl, (hkeeps hL.guarded).held hc⟩
  refine ⟨fun h => absurd h (blockAddr_pos b), fun _ => ?_⟩
  refine (hsame getTask_unchanged getTask_unchanged).mono fun t k₁ h₁ => ?_
  refine (hsame Kernel.layout_blind.copyToPage Kernel.pointers_blind.copyToPage).mono
    fun copied k₂ h₂ => ?_
  have hk₂ := hfreed (h₂.1.trans h₁.1) (h₂.2.trans h₁.2)
  exact ⟨fun _ => Meets.modify_iff.mpr hk₂, fun _ => Meets.modify_iff.mpr hk₂⟩

/-- The program goes on in the task of a process of the table. -/
theorem processEnter_alive (h : k.Alive) (hr : k.Registered process) :
    Meets False (processEnter process) k fun _ k' => k'.Alive := by
  rw [processEnter, Meets.bind_iff]
  refine Kernel.getProcess_rule False.elim fun p h0 hp => ?_
  rw [Meets.bind_iff]
  refine Meets.self.mono fun _ k' e => Meets.pure_iff.mpr ?_
  have hl : k'.layout = k.layout := KeepsLayout.taskSwitch k _ k' e
  have hcur : k'.currentTask = p.task := (taskSwitch_paged.of_eq e).2
  obtain ⟨hr', p', hp', he⟩ := Kernel.KeepsTasks.of_layout hl process p hr hp
  exact ⟨h.populated.of_layout hl, fun _ => ⟨process, p', hr', hp', he.trans hcur.symm⟩⟩

/-- The table of processes is in the layout. -/
theorem Kernel.Registered.of_layout (h : k.Registered process) (hl : k'.layout = k.layout) :
    k'.Registered process := by
  unfold Registered
  rw [Kernel.processes_of_layout hl]
  exact h

/-- What keeps the layout and the pointers keeps everyone alive, and the current task. -/
theorem Kernel.Alive.unchanged {α : Type} {m : KernelM α} (h : k.Alive) (hl : KeepsLayout m)
    (hp : KeepsPointers m) : Meets False m k fun _ k' => k'.Alive ∧
      (∀ q, k.Registered q → k'.Registered q) ∧ k'.currentTask = k.currentTask :=
  Meets.self.mono fun x k' e =>
    have hlayout := hl k x k' e
    have hcur := Kernel.currentTask_of_pointers (hp k x k' e)
    ⟨h.of_layout hlayout hcur, fun _ hq => hq.of_layout hlayout, hcur⟩

/-- An item of the stack is a word. -/
theorem taskGetStackItem_alive {index : ℕ} (h : k.Alive) :
    Meets False (taskGetStackItem task index) k fun item k' => item < 4294967296 ∧ k'.Alive ∧
      k'.currentTask = k.currentTask :=
  (taskGetStackItem_lt.and_liberal (h.unchanged KeepsLayout.taskGetStackItem
    (.of_withoutDirectory taskGetStackItem_unchanged))).mono fun _ _ h => ⟨h.1, h.2.1, h.2.2.2⟩

/-- An allocation of a process in the table, of at least a byte. -/
theorem processMalloc_alive {size : ℕ} (h : k.Alive) (hr : k.Registered process)
    (hlt : size < 4294967296) (h0 : size ≠ 0) : Meets False (processMalloc process size) k
      fun _ k' => k'.Alive ∧ ∀ q, k.Registered q → k'.Registered q :=
  Meets.self.mono fun _ _ e => h.step hr (.malloc e hlt) (.inl h0)

/-- The current task leads to its process. -/
theorem getTask_alive (h : k.Alive) : Meets False (getTask k.currentTask) k fun t k' =>
    k' = k ∧ k.Registered t.process :=
  Kernel.getTask_rule fun _ h0 ht => ⟨rfl, h.registered h0 ht⟩

/-- The copies of the arguments are such allocations, by recursion on the fuel. -/
theorem processInjectArgumentsLoop_alive {argv : ℕ} : ∀ (fuel current i : ℕ) {k : Kernel},
    k.Alive → k.Registered process →
    Meets False (processInjectArgumentsLoop process argv fuel current i) k fun _ k' =>
      k'.Alive ∧ k'.Registered process
  | 0, _, _, _, h, hr => Meets.ite_iff.mpr
    ⟨fun _ => Meets.pure_iff.mpr ⟨h, hr⟩, fun _ => Meets.fault_iff.mpr not_false⟩
  | fuel + 1, current, i, k, h, hr => by
    have hstore {a : ℕ} {bs : List UInt8} {k₁ : Kernel} (h₁ : k₁.Alive) :=
      h₁.unchanged (m := storeBytes a bs) Kernel.layout_blind.storeBytes
        Kernel.pointers_blind.storeBytes
    simp only [processInjectArgumentsLoop, Meets.ite_iff, Meets.bind_iff, Meets.get_iff,
      Meets.pure_iff]
    refine ⟨fun _ => ⟨h, hr⟩, fun _ => ?_⟩
    refine (processMalloc_alive h hr (by decide) (by decide)).mono fun str k₁ h₁ => ?_
    have hr₁ := h₁.2 _ hr
    refine ⟨fun _ => ⟨h₁.1, hr₁⟩, fun _ => ?_⟩
    refine (hstore h₁.1).mono fun _ k₂ h₂ => (hstore h₂.1).mono fun _ k₃ h₃ => ?_
    exact processInjectArgumentsLoop_alive fuel _ _ h₃.1 (h₃.2.1 _ (h₂.2.1 _ hr₁))

/-- No more arguments are counted than there is fuel. -/
theorem processCountCommandArgumentsLoop_le {m : ℕ → UInt8} : ∀ {fuel current i argc : ℕ},
    processCountCommandArgumentsLoop m fuel current i = some argc → argc ≤ i + fuel
  | 0, current, i, argc, h => by
    rw [processCountCommandArgumentsLoop] at h
    split_ifs at h
    cases h
    exact le_rfl
  | fuel + 1, current, i, argc, h => by
    rw [processCountCommandArgumentsLoop] at h
    split_ifs at h
    · cases h
      exact Nat.le_add_right _ _
    · have := processCountCommandArgumentsLoop_le h
      omega

/-- The arguments are copied to allocations of the new process. -/
theorem processInjectArguments_alive {root : ℕ} (h : k.Alive) (hr : k.Registered process)
    (hfuel : fuel < 1073741824) : Meets False (processInjectArguments fuel process root) k
      fun _ k' => k'.Alive ∧ k'.Registered process := by
  rw [processInjectArguments, Meets.bind_iff, Meets.get_iff, Meets.bind_iff]
  cases hcount : processCountCommandArguments k.mem fuel root with
  | none => exact Meets.fault_iff.mpr not_false
  | some argc =>
    refine Meets.pure_iff.mpr ?_
    have hle : argc ≤ 0 + fuel := processCountCommandArgumentsLoop_le hcount
    simp only [Meets.ite_iff, Meets.bind_iff, Meets.pure_iff]
    refine ⟨fun _ => ⟨h, hr⟩, fun h0 => ?_⟩
    refine (processMalloc_alive h hr (by omega) (by omega)).mono fun argv k₁ h₁ => ?_
    have hr₁ := h₁.2 _ hr
    refine ⟨fun _ => ⟨h₁.1, hr₁⟩, fun _ => ?_⟩
    refine (processInjectArgumentsLoop_alive fuel _ _ h₁.1 hr₁).mono fun res k₂ h₂ => ?_
    refine ⟨fun _ => h₂, fun _ => ?_⟩
    have harguments : KeepsLayout (modifyProcess process fun p =>
        { p with arguments := ⟨wrapInt argc, argv⟩ }) :=
      Kernel.layout_blind.modifyProcess fun _ => rfl
    exact (h₂.1.unchanged harguments KeepsPointers.modifyProcess).mono
      fun _ k₃ h₃ => ⟨h₃.1, h₃.2.1 _ h₂.2⟩

/-- A program is started by `isr80h_command6_process_load_start`. -/
theorem isr80hCommand6_alive (h : k.Alive) :
    Meets False isr80hCommand6ProcessLoadStart k fun _ k' => k'.Alive := by
  simp only [isr80hCommand6ProcessLoadStart, Meets.bind_iff, Meets.get_iff]
  refine (taskGetStackItem_alive h).mono fun item k₁ h₁ => Meets.self.mono fun x k₂ e => ?_
  have h₂ : k₂.Alive := copyStringFromTask_keepsAlive k₁ x k₂ e h₁.2.1
  simp only [Meets.ite_iff, Meets.bind_iff, Meets.pure_iff, Meets.fault_iff]
  refine ⟨fun _ => h₂, fun _ => ⟨fun _ => not_false, fun _ => ?_⟩⟩
  refine h₂.load.mono fun y k₃ h₃ => ⟨fun _ => h₃.1, fun hpos => ?_⟩
  exact processEnter_alive h₃.1 (h₃.2 (not_lt.mp hpos))

/-- Or with arguments by `isr80h_command7_invoke_system_command`. -/
theorem isr80hCommand7_alive (h : k.Alive) (hfuel : fuel < 1073741824) :
    Meets False (isr80hCommand7InvokeSystemCommand fuel) k fun _ k' => k'.Alive := by
  simp only [isr80hCommand7InvokeSystemCommand, Meets.bind_iff, Meets.get_iff]
  refine (taskGetStackItem_alive h).mono fun item k₁ h₁ => ?_
  have hphys : KeepsLayout (taskVirtualAddressToPhysical k.currentTask item) :=
    getTask_unchanged.bind fun _ => getChunk_unchanged.bind fun _ =>
      pagingGetPhysicalAddress_unchanged
  refine (h₁.2.1.unchanged hphys KeepsPointers.taskVirtualAddressToPhysical).mono
    fun root k₂ h₂ => ?_
  simp only [invokeSystemCommand, Meets.bind_iff, Meets.get_iff, Meets.ite_iff, Meets.pure_iff,
    Meets.fault_iff]
  refine ⟨fun _ => h₂.1, fun _ => ⟨fun _ => not_false, fun _ => ?_⟩⟩
  refine h₂.1.load.mono fun x k₃ h₃ => ⟨fun _ => h₃.1, fun hpos => ?_⟩
  refine (processInjectArguments_alive h₃.1 (h₃.2 (not_lt.mp hpos)) hfuel).mono fun res k₄ h₄ => ?_
  exact ⟨fun _ => h₄.1, fun _ => processEnter_alive h₄.1 h₄.2⟩

/-- The arguments are handed over through the memory. -/
theorem isr80hCommand8_keepsLayout : KeepsLayout isr80hCommand8GetProgramArguments := by
  refine get_unchanged.bind fun _ => getTask_unchanged.bind fun _ => ?_
  refine KeepsLayout.taskGetStackItem.bind fun _ => ?_
  refine Unchanged.bind (getTask_unchanged.bind fun _ => getChunk_unchanged.bind fun _ =>
    pagingGetPhysicalAddress_unchanged) fun arguments => getProcess_unchanged.bind fun p => ?_
  have hstore {ws : List (ℕ × UInt8)} : KeepsLayout (do
      modify fun k => k.stored ws
      return ws) := Unchanged.bind (.modify fun _ => rfl) fun _ => .pure _
  exact hstore

/-- The process ends, and the next task has its turn. -/
theorem isr80hCommand9_populated (h : k.Alive) :
    Meets False isr80hCommand9Exit k fun _ k' => k'.Populated := by
  rw [isr80hCommand9Exit, Meets.bind_iff, Meets.get_iff, Meets.bind_iff]
  refine (getTask_alive h).mono ?_
  rintro t k₁ ⟨rfl, hr⟩
  rw [Meets.bind_iff]
  refine (h.populated.terminate hr).mono fun _ k₂ h₂ => ?_
  exact Meets.self.mono fun task k₃ e => h₂.of_layout (KeepsLayout.taskNext k₂ task k₃ e)

end Calls

/-! ## The handlers -/

section Handlers

variable {s s' : System} {fuel command : ℕ} {buf : LocalArray} {frame : InterruptFrame}
  {scancode : UInt8} {left : Option ℕ}

/-- The processes live, and one of them runs unless `task_next` has chosen the task. -/
def AliveUnless (nexts : Prop) (k : Kernel) : Prop := k.Populated ∧ (¬nexts → k.Running)

/-- Everyone is alive. -/
theorem Kernel.Alive.unless {nexts : Prop} (h : k.Alive) : AliveUnless nexts k :=
  ⟨h.populated, fun _ => h.running⟩

/-- The task that is current leads to a process. -/
theorem AliveUnless.alive {nexts : Prop} (h : AliveUnless nexts k) (hr : nexts → k.Running) :
    k.Alive := by
  refine ⟨h.1, ?_⟩
  by_cases hn : nexts
  · exact hr hn
  · exact h.2 hn

/-- To load the directory of the current task changes neither. -/
theorem AliveUnless.taskPage {nexts : Prop} (h : AliveUnless nexts k) :
    Meets False taskPage k fun _ k' => AliveUnless nexts k' :=
  Meets.self.mono fun x k' e => by
    have hl : k'.layout = k.layout := KeepsLayout.taskPage k x k' e
    have hcur : k'.currentTask = k.currentTask := (taskPage_paged.of_eq e).2
    exact ⟨h.1.of_layout hl, fun hn => (h.2 hn).keeps (.of_layout hl) fun _ => hcur⟩

/-- A command, of which `malloc` is not asked for 0 bytes. -/
theorem Isr80hCommand.run_alive (c : Isr80hCommand) (h : s.kernel.Alive) (hfuel : fuel < 1073741824)
    (hsize : c = .command4Malloc → ∀ size k',
      taskGetStackItem s.kernel.currentTask 0 s.kernel = some (size, k') → size ≠ 0) :
    Meets False (c.run fuel buf) s fun _ s' => AliveUnless (c = .command9Exit) s'.kernel := by
  have hitem {task index : ℕ} : KeepsPointers (taskGetStackItem task index) :=
    .of_withoutDirectory taskGetStackItem_unchanged
  cases c with
  | command0Sum =>
    have hlayout : KeepsLayout isr80hCommand0Sum := get_unchanged.bind fun _ =>
      KeepsLayout.taskGetStackItem.bind fun _ => KeepsLayout.taskGetStackItem.bind fun _ => .pure _
    have hkeeps : KeepsPointers isr80hCommand0Sum :=
      get_unchanged.bind fun _ => hitem.bind fun _ => hitem.bind fun _ => .pure _
    simp only [Isr80hCommand.run, Meets.bind_iff, inKernel_meets, Meets.pure_iff]
    exact (h.unchanged hlayout hkeeps).mono fun _ k' h' => h'.1.unless
  | command1Print =>
    simp only [Isr80hCommand.run, isr80hCommand1Print, Meets.bind_iff, inKernel_meets,
      Meets.get_iff,
      Meets.ite_iff, Meets.pure_iff]
    refine (taskGetStackItem_alive h).mono fun item k₁ h₁ => Meets.self.mono fun x k₂ e => ?_
    have h₂ : k₂.Alive := copyStringFromTask_keepsAlive k₁ x k₂ e h₁.2.1
    refine ⟨fun _ => Meets.fault_iff.mpr not_false, fun _ => ?_⟩
    exact Meets.bind_iff.mpr (Meets.modify_iff.mpr (Meets.pure_iff.mpr h₂.unless))
  | command2Getkey =>
    simp only [Isr80hCommand.run, isr80hCommand2Getkey, Meets.bind_iff, inKernel_meets,
      Meets.pure_iff]
    exact (h.unchanged KeepsLayout.keyboardPop KeepsPointers.keyboardPop).mono
      fun _ k' h' => h'.1.unless
  | command3Putchar =>
    simp only [Isr80hCommand.run, isr80hCommand3Putchar, Meets.bind_iff, inKernel_meets,
      Meets.get_iff, Meets.modify_iff, Meets.pure_iff]
    exact (taskGetStackItem_alive h).mono fun _ k' h' => h'.2.1.unless
  | command4Malloc =>
    simp only [Isr80hCommand.run, isr80hCommand4Malloc, Meets.bind_iff, inKernel_meets,
      Meets.get_iff, Meets.pure_iff]
    refine ((taskGetStackItem_alive h).and_liberal Meets.self).mono fun size k₁ hk₁ => ?_
    obtain ⟨⟨hlt, h₁, hcur⟩, e⟩ := hk₁
    rw [← hcur]
    refine (getTask_alive h₁).mono ?_
    rintro t _ ⟨rfl, hr⟩
    exact (processMalloc_alive h₁ hr hlt (hsize rfl size _ e)).mono fun _ k' h' => h'.1.unless
  | command5Free =>
    simp only [Isr80hCommand.run, isr80hCommand5Free, Meets.bind_iff, inKernel_meets,
      Meets.get_iff, Meets.pure_iff]
    refine (taskGetStackItem_alive h).mono fun ptr k₁ hk₁ => ?_
    obtain ⟨hlt, h₁, hcur⟩ := hk₁
    rw [← hcur]
    refine (getTask_alive h₁).mono ?_
    rintro t _ ⟨rfl, hr⟩
    exact Meets.self.mono fun _ k' e => (h₁.step hr (.free e hlt) trivial).1.unless
  | command6ProcessLoadStart =>
    exact inKernel_meets.mpr ((isr80hCommand6_alive h).mono fun _ k' h' => h'.unless)
  | command7InvokeSystemCommand =>
    exact inKernel_meets.mpr ((isr80hCommand7_alive h hfuel).mono fun _ k' h' => h'.unless)
  | command8GetProgramArguments =>
    simp only [Isr80hCommand.run, Meets.bind_iff, inKernel_meets, Meets.pure_iff]
    refine (isr80hCommand8_currentTask.and_liberal Meets.self).mono fun stores k' hk' => ?_
    exact (h.of_layout (isr80hCommand8_keepsLayout _ stores k' hk'.2) hk'.1).unless
  | command9Exit =>
    simp only [Isr80hCommand.run, Meets.bind_iff, inKernel_meets, Meets.pure_iff]
    exact (isr80hCommand9_populated h).mono fun _ k' h' => ⟨h', fun hne => absurd trivial hne⟩

/-- The command that `isr80h_handle_command` runs. -/
def System.commandFor (s : System) (command : ℕ) : Option Isr80hCommand :=
  if asSigned command < 0 ∨ (maxIsr80hCommands : Int) ≤ asSigned command then none
  else s.idt.isr80hCommands (asSigned command).toNat

/-- Item 0 of the stack of the program that is in `frame`. -/
def systemCallArgument (frame : InterruptFrame) : KernelM ℕ := do
  kernelPage
  taskCurrentSaveState frame
  let k ← get
  taskGetStackItem k.currentTask 0

/-- To load that of the kernel does not either. -/
theorem kernelPage_alive (h : k.Alive) : Meets False kernelPage k fun _ k' => k'.Alive :=
  (h.unchanged Kernel.layout_blind.kernelPage Kernel.pointers_blind.kernelPage).mono
    fun _ _ h' => h'.1

/-- And to save the registers does not. -/
theorem taskCurrentSaveState_alive (h : k.Alive) :
    Meets False (taskCurrentSaveState frame) k fun _ k' => k'.Alive :=
  (h.unchanged KeepsLayout.taskCurrentSaveState taskCurrentSaveState_keepsPointers).mono
    fun _ _ h' => h'.1

/-- The way out of a command. -/
theorem isr80hReturn_alive {nexts : Prop} (res : CommandEnd) (h : AliveUnless nexts s.kernel) :
    Meets False (isr80hReturn res) s fun _ s' => AliveUnless nexts s'.kernel := by
  cases res with
  | entered task => exact Meets.pure_iff.mpr h
  | returned v =>
    simp only [isr80hReturn, Meets.bind_iff, inKernel_meets, Meets.pure_iff]
    exact h.taskPage

/-- A system call, whichever command it asks for. -/
theorem isr80hHandler_alive (h : s.kernel.Alive) (hfuel : fuel < 1073741824)
    (hsize : s.commandFor command = some .command4Malloc → ∀ size k',
      systemCallArgument frame s.kernel = some (size, k') → size ≠ 0) :
    Meets False (isr80hHandler fuel buf command frame) s fun _ s' =>
      AliveUnless (s.commandFor command = some .command9Exit) s'.kernel := by
  simp only [isr80hHandler, Meets.bind_iff, inKernel_meets]
  refine ((kernelPage_alive h).and_liberal Meets.self).mono fun _ k₁ h₁ => ?_
  refine ((taskCurrentSaveState_alive h₁.1).and_liberal Meets.self).mono fun _ k₂ h₂ => ?_
  have hargument (k' : Kernel) (size : ℕ)
      (e : taskGetStackItem k₂.currentTask 0 k₂ = some (size, k')) :
      systemCallArgument frame s.kernel = some (size, k') := by
    rw [systemCallArgument, run_bind, h₁.2, Option.bind_some, run_bind, h₂.2, Option.bind_some,
      run_bind, run_get, Option.bind_some, e]
  refine (?_ : Meets False (isr80hHandleCommand fuel buf command) { s with kernel := k₂ }
    fun _ s' => AliveUnless (s.commandFor command = some .command9Exit) s'.kernel).mono
    fun res s' hres => isr80hReturn_alive res hres
  rw [isr80hHandleCommand, Meets.bind_iff, Meets.get_iff]
  refine Meets.ite_iff.mpr ⟨fun _ => Meets.pure_iff.mpr h₂.1.unless, fun hin => ?_⟩
  have hfor : s.commandFor command = s.idt.isr80hCommands (asSigned command).toNat := if_neg hin
  rw [hfor] at hsize ⊢
  cases hc : s.idt.isr80hCommands (asSigned command).toNat with
  | none => exact Meets.pure_iff.mpr h₂.1.unless
  | some c =>
    refine (c.run_alive (s := { s with kernel := k₂ }) h₂.1 hfuel fun he size k' e => ?_).mono ?_
    · exact hsize (by rw [hc, he]) size k' (hargument k' size e)
    · exact fun _ s' h' => ⟨h'.1, fun hne => h'.2 fun he => hne (congrArg some he)⟩

/-- A key. -/
theorem classicKeyboardHandleInterrupt_alive (h : s.kernel.Alive) :
    Meets False (classicKeyboardHandleInterrupt scancode) s fun _ s' => s'.kernel.Alive := by
  have hpage {s : System} (h : s.kernel.Alive) :
      Meets False (inKernel taskPage) s fun _ s' => s'.kernel.Alive := by
    have hunless : AliveUnless False s.kernel := h.unless
    rw [inKernel_meets]
    exact hunless.taskPage.mono fun _ k' h' => h'.alive False.elim
  have hkey {s : System} (h : s.kernel.Alive) :
      Meets False (classicKeyboardPushKey scancode) s fun _ s' => s'.kernel.Alive := by
    rw [classicKeyboardPushKey, Meets.bind_iff, Meets.get_iff]
    cases classicKeyboardScancodeToChar s.capslockState scancode with
    | none => exact Meets.fault_iff.mpr not_false
    | some c =>
      simp only [Meets.ite_iff, Meets.bind_iff]
      refine ⟨fun _ => ?_, fun _ => hpage h⟩
      rw [inKernel_meets]
      exact (h.unchanged KeepsLayout.keyboardPush KeepsPointers.keyboardPush).mono
        fun _ k' h' => hpage h'.1
  simp only [classicKeyboardHandleInterrupt, Meets.bind_iff, inKernel_meets, Meets.ite_iff,
    Meets.pure_iff, Meets.modify_iff]
  refine (kernelPage_alive h).mono fun _ k₁ h₁ => ?_
  exact ⟨fun _ => h₁, fun _ => ⟨fun _ => hkey h₁, fun _ => hkey h₁⟩⟩

/-- The turn of the next task. -/
theorem taskNext_populated (h : k.Populated) :
    Meets False taskNext k fun _ k' => k'.Populated :=
  Meets.self.mono fun task k' e => h.of_layout (KeepsLayout.taskNext k task k' e)

/-- Each of the callbacks. -/
theorem InterruptCallback.run_alive (c : InterruptCallback) (h : s.kernel.Alive) :
    Meets False (c.run scancode) s fun _ s' =>
      AliveUnless (c ≠ .classicKeyboardHandleInterrupt) s'.kernel := by
  cases c with
  | idtHandleException =>
    have hexit : Meets False Hyperion.idtHandleException s.kernel fun _ k' => k'.Populated :=
      isr80hCommand9_populated h
    simp only [InterruptCallback.run, Meets.bind_iff, inKernel_meets, Meets.pure_iff]
    exact hexit.mono fun _ k' h' => ⟨h', fun hne => absurd (by decide) hne⟩
  | idtClock =>
    simp only [InterruptCallback.run, Meets.bind_iff, inKernel_meets, Meets.pure_iff]
    exact (taskNext_populated h.populated).mono fun _ k' h' =>
      ⟨h', fun hne => absurd (by decide) hne⟩
  | classicKeyboardHandleInterrupt =>
    simp only [InterruptCallback.run, Meets.bind_iff, Meets.pure_iff]
    exact (classicKeyboardHandleInterrupt_alive h).mono fun _ s' h' => h'.unless

/-- An interrupt with a callback other than that of the keyboard leads to `task_next`. -/
def System.CallsNext (s : System) (n : ℕ) : Prop :=
  ∃ c, s.idt.interruptCallbacks n = some c ∧ c ≠ .classicKeyboardHandleInterrupt

/-- An interrupt, with a callback or without. -/
theorem interruptHandler_alive (h : s.kernel.Alive) :
    Meets False (interruptHandler scancode n frame) s fun _ s' =>
      AliveUnless (s.CallsNext n) s'.kernel := by
  simp only [interruptHandler, Meets.bind_iff, inKernel_meets, Meets.get_iff]
  refine (kernelPage_alive h).mono fun _ k₁ h₁ => ?_
  have hback (left : Option ℕ) (s₁ : System) (h₁ : AliveUnless (s.CallsNext n) s₁.kernel) :
      Meets False (if left = none then do
        inKernel taskPage
        return left
      else return left : SystemM (Option ℕ)) s₁ fun _ s' =>
        AliveUnless (s.CallsNext n) s'.kernel := by
    simp only [Meets.ite_iff, Meets.bind_iff, inKernel_meets, Meets.pure_iff]
    exact ⟨fun _ => h₁.taskPage, fun _ => h₁⟩
  cases hc : s.idt.interruptCallbacks n with
  | none => exact Meets.bind_iff.mpr (Meets.pure_iff.mpr (hback none _ h₁.unless))
  | some c =>
    simp only [Meets.bind_iff, inKernel_meets]
    refine (taskCurrentSaveState_alive h₁).mono fun _ k₂ h₂ => ?_
    refine (c.run_alive (s := { s with kernel := k₂ }) h₂).mono fun left s₃ h₃ => hback left s₃ ?_
    exact ⟨h₃.1, fun hno => h₃.2 fun hne => hno ⟨c, hc, hne⟩⟩

end Handlers

/-! ## What a run keeps to -/

/-- Where memory of the program of a process begins : its data, its stack or an allocation. -/
inductive Process.Memory (p : Process) : ℕ → Prop
  | binary {a : ℕ} : p.data = .ptr a → Memory p a
  | elf {file : ElfFile} : p.data = .elfFile file → Memory p file.elfMemory
  | stack : Memory p p.stack
  | allocation {a : ℕ} : p.Recorded a → Memory p a

/-- The byte at `a` is in the memory of the program of a process in the table. -/
def Kernel.ProgramByte (k : Kernel) (a : ℕ) : Prop := ∃ process p b n, k.Registered process ∧
  k.store process = some (.process p) ∧ p.Memory b ∧ k.Owns b n ∧ b ≤ a ∧ a < b + 4096 * n

/-- The pointer is null or leads to the task of a process in the table. -/
def Kernel.LiveLink (k : Kernel) (a : ℕ) : Prop := a = 0 ∨ ∃ process p,
  k.Registered process ∧ k.store process = some (.process p) ∧ p.task = a

/-- The process of the current task can be taken out of the list of tasks. -/
def Kernel.CanExit (k : Kernel) : Prop := ∀ t p t', k.store k.currentTask = some (.task t) →
  k.store t.process = some (.process p) → k.store p.task = some (.task t') → k.LiveLink t'.prev

/-- No cell of the kernel's image or behind it has been stored to. -/
def Terminal.BelowKernel (t : Terminal) : Prop :=
  ∀ cell ∈ t.stores, 0xB8000 + 2 * (cell.2 * vgaWidth.toNat + cell.1) + 2 ≤ 0x100000

/-- The stores of command 8, called in `frame`. -/
def systemCallStores (frame : InterruptFrame) : KernelM (List (ℕ × UInt8)) := do
  kernelPage
  taskCurrentSaveState frame
  isr80hCommand8GetProgramArguments

/-- The commands that load a program. -/
def Isr80hCommand.Loads (c : Isr80hCommand) : Prop :=
  c = .command6ProcessLoadStart ∨ c = .command7InvokeSystemCommand

/-- The entry leads to `task_next`. -/
def KernelEntry.CallsNext (s : System) : KernelEntry → Prop
  | .interrupt _ n => s.CallsNext n
  | .systemCall command => s.commandFor command = some .command9Exit

/-- The entry ends the current process. -/
def KernelEntry.Exits (s : System) : KernelEntry → Prop
  | .interrupt _ n => s.idt.interruptCallbacks n = some .idtHandleException
  | .systemCall command => s.commandFor command = some .command9Exit

/-- The entry is one of those listed above, from `s` to `s'`. -/
structure KernelEntry.Sound (s : System) (frame : InterruptFrame) (entry : KernelEntry)
    (s' : System) : Prop where
  next : entry.CallsNext s → s'.kernel.Running
  exit : entry.Exits s → s.kernel.CanExit
  load : ∀ command c, entry = .systemCall command → s.commandFor command = some c → c.Loads →
    s.kernel.LiveLink s.kernel.taskTail
  request : ∀ command, entry = .systemCall command → s.commandFor command = some .command4Malloc →
    ∀ size k', systemCallArgument frame s.kernel = some (size, k') → size ≠ 0
  stores : ∀ command, entry = .systemCall command →
    s.commandFor command = some .command8GetProgramArguments →
    ∀ ws k', systemCallStores frame s.kernel = some (ws, k') → ∀ w ∈ ws, s.kernel.ProgramByte w.1
  screen : s'.terminal.BelowKernel

/-! ## Runs -/

/-- Whatever brings the CPU into the kernel. -/
theorem KernelEntry.run_alive {entry : KernelEntry} {s s' : System} {fuel : ℕ} {buf : LocalArray}
    {frame : InterruptFrame} {left : Option ℕ} (h : s.kernel.Alive) (hfuel : fuel < 1073741824)
    (he : entry.run fuel buf frame s = some (left, s')) (hs : entry.Sound s frame s') :
    s'.kernel.Alive := by
  cases entry with
  | interrupt scancode n => exact ((interruptHandler_alive h).of_eq he).alive hs.next
  | systemCall command =>
    obtain ⟨res, s₁, hrun, hres⟩ := bind_eq_some.mp he
    have halive := (isr80hHandler_alive h hfuel (hs.request command rfl)).of_eq hrun
    cases hres
    exact halive.alive hs.next

/-- What happens : `kernel_main` loads a program or starts the first task, a program writes to the
memory, or the kernel is entered. -/
inductive SystemEvent
  | load (filename : List UInt8)
  | firstTask
  | write (mem : ℕ → UInt8)
  | entry (frame : InterruptFrame) (entry : KernelEntry)

/-- A list of 2 ^ 30 arguments or more does not fit in the memory. -/
inductive SystemStep : System → SystemEvent → System → Prop
  | load {s : System} {filename : List UInt8} {x : Int × ℕ} {k' : Kernel} :
      processLoadSwitch filename s.kernel = some (x, k') →
      SystemStep s (.load filename) { s with kernel := k' }
  | firstTask {s : System} {task : ℕ} {k' : Kernel} :
      taskRunFirstEverTask s.kernel = some (task, k') →
      SystemStep s .firstTask { s with kernel := k' }
  | write {s : System} (mem : ℕ → UInt8) :
      SystemStep s (.write mem) { s with kernel := { s.kernel with mem := mem } }
  | entry {s s' : System} {fuel : ℕ} {buf : LocalArray} {frame : InterruptFrame}
      {entry : KernelEntry} {left : Option ℕ} : fuel < 1073741824 →
      entry.run fuel buf frame s = some (left, s') → SystemStep s (.entry frame entry) s'

/-- The event keeps to what is listed above, from `s` to `s'`. -/
def SystemEvent.Sound (s : System) (event : SystemEvent) (s' : System) : Prop :=
  match event with
  | .load _ => s.kernel.LiveLink s.kernel.taskTail
  | .firstTask => s'.kernel.Running
  | .write mem => ∀ a, mem a ≠ s.kernel.mem a → s.kernel.ProgramByte a
  | .entry frame e => e.Sound s frame s'

/-- One step of a run. -/
theorem SystemStep.alive {s s' : System} {event : SystemEvent} (hs : SystemStep s event s')
    (hsound : event.Sound s s') (h : s.kernel.Alive) : s'.kernel.Alive := by
  cases hs with
  | load hrun => exact (h.load.of_eq hrun).1
  | firstTask hrun =>
    have hlayout : KeepsLayout taskRunFirstEverTask := get_unchanged.bind fun k => by
      have hswitch : KeepsLayout (do
        taskSwitch k.taskHead
        return k.taskHead) := KeepsLayout.taskSwitch.bind fun _ => .pure _
      exact .ite (Unchanged.fault.bind fun _ => hswitch) hswitch
    exact ⟨h.populated.of_layout (hlayout _ _ _ hrun), hsound⟩
  | write mem => exact h.of_layout rfl rfl
  | entry hfuel hrun => exact KernelEntry.run_alive h hfuel hrun hsound

/-- In every state of a run that keeps to the list, the table of processes is consistent and the
memory is divided between the processes. -/
theorem system_run_divided {s₀ s : System} (h₀ : NoProcesses s₀.kernel)
    (hcur : s₀.kernel.currentTask = 0) {tr : List (System × SystemEvent × System)}
    (htr : Trace SystemStep s₀ tr s) (hs : ∀ x ∈ tr, x.2.1.Sound x.1 x.2.2) :
    TableConsistent s.kernel ∧ MemoryDivided s.kernel := by
  have halive : s₀.kernel.Alive :=
    ⟨⟨_, .of_noProcesses h₀⟩, fun hne => absurd hcur hne⟩
  have hrun := htr.invariant (I := fun s : System => s.kernel.Alive)
    (C := fun s event s' => event.Sound s s') halive (fun _ _ _ hs hsound => hs.alive hsound) hs
  obtain ⟨L, hL⟩ := hrun.2.populated
  exact ⟨hL.consistent, hL.divided⟩

/-- The first task is started. -/
theorem ProcessAt.firstTask_run {p : Process} {t : Task} {d : ℕ} {f e : ℕ → ℕ}
    (h : ProcessAt k process p t d f e) (hr : k.Registered process) (hhead : k.taskHead = p.task)
    (hcur : k.currentTask = p.task) :
    ∃ k', taskRunFirstEverTask k = some (p.task, k') ∧ k'.Running ∧ k'.processes = k.processes := by
  have h0 : k.taskHead ≠ 0 := hhead.trans_ne h.task_ne
  have htask : ({ k with currentTask := k.taskHead } : Kernel).store k.taskHead = some (.task t) :=
    show k.store k.taskHead = _ from hhead ▸ h.task
  have hchunk : ({ k with currentTask := k.taskHead } : Kernel).store t.pageDirectory =
    some (.chunk d) := h.maps.chunk
  have hmeets : Meets True taskRunFirstEverTask k fun task k₁ => task = k.taskHead ∧
      k₁ = { k with currentTask := k.taskHead, currentDirectory := d } := by
    simp only [taskRunFirstEverTask, taskSwitch, pagingSwitch, Meets.bind_iff, Meets.get_iff,
      Meets.ite_iff, Meets.modify_iff, Meets.pure_iff]
    refine ⟨fun hz => absurd (hcur.symm.trans hz) h.task_ne, fun _ => ?_⟩
    rw [Kernel.getTask_meets h0 htask, Kernel.getChunk_meets h.maps.chunk_ne hchunk]
    exact ⟨trivial, rfl⟩
  obtain ⟨_, k₁, hrun, rfl, rfl⟩ := hmeets.exists_result
  rw [hhead] at hrun
  exact ⟨_, hrun, fun _ => ⟨process, p, hr, h.self, rfl⟩, rfl⟩

/-- A program is loaded and started. -/
theorem system_run_divided_first : ∃ s₀ s₁ s₂, SystemStep s₀ (.load smallPath) s₁ ∧
    SystemStep s₁ .firstTask s₂ ∧ TableConsistent s₂.kernel ∧ MemoryDivided s₂.kernel ∧
    s₂.kernel.processes 0 ≠ 0 := by
  obtain ⟨k, k₀, k₁, _, _, p, t, dir, f, e, h⟩ := oneSegment_loads (show (84, 0) ∈ _ by decide)
  have hlist : k.currentTask = 0 ∧ k.taskTail = 0 := by
    have hmount : (diskSearchAndInit (elfKernel 85 (oneSegment 84 0))).map (fun x =>
        (x.2.currentTask, x.2.taskTail)) = some (0, 0) := by decide +kernel
    rw [h.mount] at hmount
    exact Prod.mk.inj (Option.some.inj hmount)
  have hrun : processLoadSwitch smallPath k =
      some ((0, blockAddr 6), { k₁ with currentProcess := blockAddr 6 }) := by
    rw [processLoadSwitch, run_bind, h.load]
    rfl
  have hnone : NoProcesses k := ⟨h.guarded, fun i hi =>
    beq_iff_eq.mp (List.all_eq_true.mp h.idle.1 i (List.mem_range.mpr hi)), h.idle.2⟩
  have hglob := h.task.globals
  have hslot : k₁.processes 0 = blockAddr 6 := by
    rw [Kernel.processes_of_globals hglob]
    rfl
  have hhead : k₁.taskHead = p.task :=
    (congrArg Kernel.taskHead hglob).trans (if_pos h.head)
  have hcur₁ : k₁.currentTask = p.task :=
    (congrArg Kernel.currentTask hglob).trans (if_pos h.head)
  have hat : ProcessAt { k₁ with currentProcess := blockAddr 6 } (blockAddr 6) p t dir f e :=
    h.task.at_process.congr fun _ _ => rfl
  obtain ⟨k₂, hfirst, hrunning, hprocs⟩ := hat.firstTask_run
    ⟨blockAddr_pos 6, 0, by decide, hslot⟩ hhead hcur₁
  have hload : SystemStep { mallocSystem with kernel := k } (.load smallPath) _ := .load hrun
  have hstart : SystemStep _ .firstTask _ := .firstTask (s := { mallocSystem with
    kernel := { k₁ with currentProcess := blockAddr 6 } }) hfirst
  have hdivided := system_run_divided hnone hlist.1 (.cons hload (.cons hstart (.nil _)))
    fun x hx => by
    rcases List.mem_cons.mp hx with rfl | hx
    · exact .inl hlist.2
    · obtain rfl := List.mem_singleton.mp hx
      exact hrunning
  exact ⟨_, _, _, hload, hstart, hdivided.1, hdivided.2, by
    show k₂.processes 0 ≠ 0
    rw [hprocs]
    exact hslot.trans_ne (blockAddr_pos 6)⟩

end Hyperion
