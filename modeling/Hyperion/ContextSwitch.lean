import Hyperion.TaskAsm
import Hyperion.TaskSpec
import Hyperion.Lib.Trace

/-!
# Context switches

A task is interrupted in user mode and its frame is saved. Other tasks are interrupted
and switched to. Then `task_return` is called on the saved registers. The machine comes
to the `iretd` with every register of the frame but two : `ebp` is the kernel's stack
pointer, because `restore_general_purpose_registers` ends with `pop ebp`, and the flags
are the kernel's (`contextSwitch_transparent_iff`).

The way has two halves. In C, `task_save_state` stores the registers of the frame to the task
(`taskSaveState_meets`), and no interrupt or switch of another task changes them
(`SwitchStep.store`, and `saved_of_switches` for any number). In assembly, `task_return` and the
routine it calls are run instruction by instruction up to the `iretd` from wherever the code is
loaded (`TaskReturnEntry`), and `iretd_user` is what that instruction leaves.

The other registers, the stack and the place in the program are those of the frame. A program that
runs with the kernel's stack pointer in `ebp` is resumed as it was, after another task has had its
turn, and every other one is not (`contextSwitch_not_transparent`).
-/

namespace Hyperion

open Partial X86

/-- The frame was pushed by an interrupt in user mode. -/
structure InterruptFrame.FromUser (frame : InterruptFrame) : Prop where
  user : frame.cs % 4 = 3
  cs : frame.cs < 65536
  ss : frame.ss < 65536

/-- The bytes at `p` are the registers `r`, in the layout of `struct registers`. -/
structure HoldsRegisters (m : Memory) (p : ℕ) (r : Registers) : Prop where
  edi : read32 m p = r.edi
  esi : read32 m (p + 4) = r.esi
  ebp : read32 m (p + 8) = r.ebp
  ebx : read32 m (p + 12) = r.ebx
  edx : read32 m (p + 16) = r.edx
  ecx : read32 m (p + 20) = r.ecx
  eax : read32 m (p + 24) = r.eax
  ip : read32 m (p + 28) = r.ip
  cs : read32 m (p + 32) = r.cs
  flags : read32 m (p + 36) = r.flags
  esp : read32 m (p + 40) = r.esp
  ss : read32 m (p + 44) = r.ss

/-- The interrupts and switches of other tasks. -/
inductive SwitchCall
  | save (task : ℕ) (frame : InterruptFrame)
  | switch (task : ℕ)
  | next

inductive SwitchStep (task : ℕ) : Kernel → SwitchCall → Kernel → Prop
  | save {k k' : Kernel} {other : ℕ} {frame : InterruptFrame} : other ≠ task →
      taskSaveState other frame k = some ((), k') → SwitchStep task k (.save other frame) k'
  | switch {k k' : Kernel} {other : ℕ} :
      taskSwitch other k = some ((), k') → SwitchStep task k (.switch other) k'
  | next {k k' : Kernel} {other : ℕ} :
      taskNext k = some (other, k') → SwitchStep task k .next k'

/-- `task_return(&task->registers)` is entered in the kernel state `k`. The registers
follow `page_directory` in `struct task`. -/
structure TaskReturnEntry (code : Code) (addrs : ℕ → ℕ) (k : Kernel) (task : ℕ) (c : Cpu) :
    Prop where
  loaded : Loaded code addrs (taskAsm (addrs 19))
  returnAddress : addrs 17 < 4294967296
  eip : c.eip = addrs 0
  regs : read32 c.mem (c.reg .esp + 4) = task + 4
  room : FrameRoom (c.reg .esp) (task + 4)
  memory : ∀ t, k.store task = some (.task t) → HoldsRegisters c.mem (task + 4) t.registers

/-- The `iretd` about to be executed resumes what the frame interrupted. -/
structure Transparent (frame : InterruptFrame) (c : Cpu) : Prop where
  edi : (iretd c).reg .edi = frame.edi
  esi : (iretd c).reg .esi = frame.esi
  ebp : (iretd c).reg .ebp = frame.ebp
  ebx : (iretd c).reg .ebx = frame.ebx
  edx : (iretd c).reg .edx = frame.edx
  ecx : (iretd c).reg .ecx = frame.ecx
  eax : (iretd c).reg .eax = frame.eax
  ip : (iretd c).eip = frame.ip
  cs : (iretd c).sreg .cs = frame.cs
  esp : (iretd c).reg .esp = frame.esp
  ss : (iretd c).sreg .ss = frame.ss
  flags : read32 c.mem (c.reg .esp + 8) = frame.flags ||| 0x200

/-! ## The saved registers stay -/

variable {k k₁ k₂ : Kernel} {task : ℕ} {frame : InterruptFrame}

/-- `task_save_state` stores the frame's registers. -/
theorem taskSaveState_meets : Meets False (taskSaveState task frame) k fun _ k' =>
    ∃ t, k'.store task = some (.task t) ∧ t.registers = frame.saved ∧
      ∀ a, a ≠ task → k'.store a = k.store a := by
  simp only [taskSaveState, modifyTask, Meets.bind_iff]
  refine Kernel.getTask_rule fun t h0 _ => ?_
  rw [Kernel.putObj_meets, if_neg h0]
  exact ⟨_, Kernel.put_store_self _ _ _, rfl, fun a ha => if_neg ha⟩

/-- No interrupt or switch of another task changes what is at `task`. -/
theorem SwitchStep.store {l : SwitchCall} (h : SwitchStep task k l k₁) :
    k₁.store task = k.store task := by
  cases h with
  | save hne he =>
    obtain ⟨-, -, -, hs⟩ := taskSaveState_meets.of_eq he
    exact hs task hne.symm
  | switch he =>
    obtain ⟨d, rfl⟩ := taskSwitch_meets.of_eq he
    rfl
  | next he => rw [taskNext_meets.of_eq he]

/-- The registers of the task are still the frame's when the others are done. -/
theorem saved_of_switches (hsave : taskSaveState task frame k = some ((), k₁))
    {tr : List (Kernel × SwitchCall × Kernel)} (hothers : Trace (SwitchStep task) k₁ tr k₂) :
    ∃ t, k₂.store task = some (.task t) ∧ t.registers = frame.saved := by
  obtain ⟨t, ht, hr, -⟩ := taskSaveState_meets.of_eq hsave
  have hinv := hothers.invariant (I := fun k => k.store task = some (.task t))
    (C := fun _ _ _ => True) ht (fun _ _ _ hs _ hI => hs.store.trans hI) fun _ _ => trivial
  exact ⟨t, hinv.2, hr⟩

/-! ## The return -/

variable {alu : AluFlags} {code : Code} {addrs : ℕ → ℕ} {c c' : Cpu}

/-- What `iretd` leaves when it returns to a less privileged code segment. -/
theorem iretd_user (hsp : c.reg .esp + 20 ≤ 4294967296)
    (hcs : read32 c.mem (c.reg .esp + 4) % 65536 % 4 ≠ 0) :
    (∀ r, r ≠ .esp → (iretd c).reg r = c.reg r) ∧ (iretd c).eip = read32 c.mem (c.reg .esp) ∧
      (iretd c).sreg .cs = read32 c.mem (c.reg .esp + 4) % 65536 ∧
      (iretd c).reg .esp = read32 c.mem (c.reg .esp + 12) ∧
      (iretd c).sreg .ss = read32 c.mem (c.reg .esp + 16) % 65536 := by
  have h4 : (c.reg .esp + 4) % 4294967296 = c.reg .esp + 4 := Nat.mod_eq_of_lt (by omega)
  have h12 : (c.reg .esp + 12) % 4294967296 = c.reg .esp + 12 := Nat.mod_eq_of_lt (by omega)
  have h16 : (c.reg .esp + 16) % 4294967296 = c.reg .esp + 16 := Nat.mod_eq_of_lt (by omega)
  simp only [iretd, h4, h12, h16, if_neg hcs]
  refine ⟨fun r hr => ?_, rfl, ?_, ?_, ?_⟩
  · simp [Cpu.setSeg, Cpu.set, Cpu.setFlags, Cpu.goto, Cpu.drop, hr]
  · simp [Cpu.setSeg, Cpu.set, Cpu.setFlags]
  · simp [Cpu.setSeg, Cpu.set]
  · simp [Cpu.setSeg]

/-- `task_return` resumes the frame exactly when the frame's `ebp` is the kernel's stack
pointer and its flags are the kernel's. -/
theorem transparent_iff (hframe : frame.FromUser) {t : Task} (hr : t.registers = frame.saved)
    (hm : HoldsRegisters c.mem (task + 4) t.registers) (he : c.reg .esp ≤ 4294967296)
    (hc' : AtIretd (c.reg .esp) (task + 4) c.mem c.eflags c') :
    Transparent frame c' ↔
      frame.ebp = c.reg .esp ∧ flagsImage c.eflags ||| 0x200 = frame.flags ||| 0x200 := by
  rw [hr] at hm
  have hcs : read32 c'.mem (c'.reg .esp + 4) = frame.cs := hc'.cs.trans hm.cs
  have hss : read32 c'.mem (c'.reg .esp + 16) = frame.ss := hc'.ss.trans hm.ss
  have hcs' := hframe.cs
  have huser := hframe.user
  have hesp := hc'.esp
  obtain ⟨hreg, hip, hc, hsp, hs⟩ := iretd_user (c := c') (by omega) (by rw [hcs]; omega)
  rw [hcs, Nat.mod_eq_of_lt hcs'] at hc
  rw [hss, Nat.mod_eq_of_lt hframe.ss] at hs
  constructor
  · intro h
    exact ⟨h.ebp.symm.trans ((hreg _ (by decide)).trans hc'.ebp), hc'.flags.symm.trans h.flags⟩
  · rintro ⟨hebp, hflags⟩
    exact ⟨(hreg _ (by decide)).trans (hc'.edi.trans hm.edi),
      (hreg _ (by decide)).trans (hc'.esi.trans hm.esi),
      (hreg _ (by decide)).trans (hc'.ebp.trans hebp.symm),
      (hreg _ (by decide)).trans (hc'.ebx.trans hm.ebx),
      (hreg _ (by decide)).trans (hc'.edx.trans hm.edx),
      (hreg _ (by decide)).trans (hc'.ecx.trans hm.ecx),
      (hreg _ (by decide)).trans (hc'.eax.trans hm.eax),
      hip.trans (hc'.ip.trans hm.ip), hc, hsp.trans (hc'.userEsp.trans hm.esp), hs,
      hc'.flags.trans hflags⟩

/-- A task interrupted in user mode with the frame `frame` is resumed by `task_return`,
after any interrupts and switches of other tasks, with exactly the frame's registers and
flags just when the frame's `ebp` is the stack pointer `task_return` is entered with and
the frame's flags are the kernel's, the interrupt bit apart. -/
theorem contextSwitch_transparent_iff (hframe : frame.FromUser)
    (hsave : taskSaveState task frame k = some ((), k₁))
    {tr : List (Kernel × SwitchCall × Kernel)} (hothers : Trace (SwitchStep task) k₁ tr k₂)
    (hentry : TaskReturnEntry code addrs k₂ task c) :
    (∃ c', Runs alu code c c' ∧ code c'.eip = some (.iretd, addrs 19)) ∧
      ∀ c' n, Runs alu code c c' → code c'.eip = some (.iretd, n) →
        (Transparent frame c' ↔
          frame.ebp = c.reg .esp ∧ flagsImage c.eflags ||| 0x200 = frame.flags ||| 0x200) := by
  obtain ⟨t, ht, hr⟩ := saved_of_switches hsave hothers
  have hreturn : ∃ c', Runs alu code c c' ∧ _ := taskReturn_runs hentry.room hentry.loaded
    hentry.returnAddress hentry.eip rfl hentry.regs
  obtain ⟨c₁, hruns, hiretd, hat⟩ := hreturn
  refine ⟨⟨c₁, hruns, hiretd⟩, fun c' n hruns' hiretd' => ?_⟩
  obtain rfl := hruns.unique hiretd hruns' hiretd'
  have := hentry.room.above
  exact transparent_iff hframe hr (hentry.memory t ht) (by omega) hat

/-! ## A task that is interrupted and resumed -/

/-- A frame of a user program whose `ebp` is `ebp`. -/
def userFrame (ebp : ℕ) : InterruptFrame where
  edi := 1
  esi := 2
  ebp := ebp
  reserved := 0
  ebx := 3
  edx := 4
  ecx := 5
  eax := 6
  ip := 0x400010
  cs := userCodeSegment
  flags := 0x246
  esp := 0x3fefe0
  ss := userDataSegment

/-- A task in the list of two, whose directory is described at `directory`. -/
def roundTask (directory next : ℕ) (registers : Registers) : Task :=
  { Task.zero with pageDirectory := directory, next, registers }

/-- A kernel with a task in the first block of the heap and another in the second. The
first one runs. Their directories are described in the next two blocks. -/
def twoTasks : Kernel := { Kernel.empty with
  store := fun a =>
    if a = 0x1000000 then some (.task (roundTask 0x1002000 0x1001000 Task.zero.registers))
    else if a = 0x1001000 then some (.task (roundTask 0x1003000 0 Task.zero.registers))
    else if a = 0x1002000 then some (.chunk 0x1004000)
    else if a = 0x1003000 then some (.chunk 0x1005000) else none
  taskHead := 0x1000000
  taskTail := 0x1001000
  currentTask := 0x1000000
  currentDirectory := 0x1004000 }

/-- The first task is interrupted with `ebp`. -/
def firstSaved (ebp : ℕ) : Kernel :=
  twoTasks.put 0x1000000 (.task (roundTask 0x1002000 0x1001000 (userFrame ebp).saved))

/-- The second task runs. -/
def secondRuns (ebp : ℕ) : Kernel :=
  { firstSaved ebp with currentTask := 0x1001000, currentDirectory := 0x1005000 }

/-- The second task is interrupted, with a frame of its own. -/
def secondSaved (ebp : ℕ) : Kernel :=
  (secondRuns ebp).put 0x1001000 (.task (roundTask 0x1003000 0 (userFrame 0x3ff000).saved))

/-- The first task is current again. -/
def firstRuns (ebp : ℕ) : Kernel :=
  { secondSaved ebp with currentTask := 0x1000000, currentDirectory := 0x1004000 }

theorem first_saved (ebp : ℕ) :
    taskSaveState 0x1000000 (userFrame ebp) twoTasks = some ((), firstSaved ebp) :=
  rfl

/-- A tick switches to the second task, and a tick switches back. -/
theorem round_of_switches (ebp : ℕ) : Trace (SwitchStep 0x1000000) (firstSaved ebp)
    [(firstSaved ebp, .next, secondRuns ebp),
      (secondRuns ebp, .save 0x1001000 (userFrame 0x3ff000), secondSaved ebp),
      (secondSaved ebp, .next, firstRuns ebp)] (firstRuns ebp) := by
  have hnext : taskNext (firstSaved ebp) = some (0x1001000, secondRuns ebp) := rfl
  have hsave : taskSaveState 0x1001000 (userFrame 0x3ff000) (secondRuns ebp) =
      some ((), secondSaved ebp) := rfl
  have hback : taskNext (secondSaved ebp) = some (0x1000000, firstRuns ebp) := rfl
  exact .cons (.next hnext) (.cons (.save (by decide) hsave) (.cons (.next hback) (.nil _)))

/-- The two routines at `0x100000`, with every instruction four bytes long. -/
def asmAddr (i : ℕ) : ℕ := 0x100000 + 4 * i

def asmCode : Code := fun a =>
  ((taskAsm (asmAddr 19))[(a - 0x100000) / 4]?).map fun i => (i, a + 4)

theorem asmCode_loaded : Loaded asmCode asmAddr (taskAsm (asmAddr 19)) := by
  intro n i hi
  have hn : (asmAddr n - 0x100000) / 4 = n := by
    unfold asmAddr
    omega
  rw [asmCode, hn, hi]
  rfl

/-- The fields of `struct registers` in order. -/
def Registers.words (r : Registers) : List ℕ :=
  [r.edi, r.esi, r.ebp, r.ebx, r.edx, r.ecx, r.eax, r.ip, r.cs, r.flags, r.esp, r.ss]

theorem holdsRegisters_storeWords (m : Memory) (p : ℕ) {r : Registers}
    (hr : ∀ w ∈ r.words, w < 4294967296) : HoldsRegisters (storeWords m p r.words) p r := by
  have hread : ∀ i w, r.words[i]? = some w → read32 (storeWords m p r.words) (p + 4 * i) = w :=
    fun i w hi => read32_storeWords m _ p i w hi (hr w (List.mem_of_getElem? hi))
  exact ⟨by simpa using hread 0 _ rfl, by simpa using hread 1 _ rfl, by simpa using hread 2 _ rfl,
    by simpa using hread 3 _ rfl, by simpa using hread 4 _ rfl, by simpa using hread 5 _ rfl,
    by simpa using hread 6 _ rfl, by simpa using hread 7 _ rfl, by simpa using hread 8 _ rfl,
    by simpa using hread 9 _ rfl, by simpa using hread 10 _ rfl, by simpa using hread 11 _ rfl⟩

/-- The kernel calls `task_return` with the stack pointer `0x5fff00`. -/
def returnCpu (ebp : ℕ) : Cpu where
  reg := fun r => if r = .esp then 0x5fff00 else 0
  sreg := fun _ => 0
  eflags := 0x46
  eip := asmAddr 0
  mem := storeWords (storeWords (fun _ => 0) 0x5fff04 [0x1000004]) 0x1000004
    (userFrame ebp).saved.words

theorem returnCpu_entry {ebp : ℕ} (hebp : ebp < 4294967296) :
    TaskReturnEntry asmCode asmAddr (firstRuns ebp) 0x1000000 (returnCpu ebp) where
  loaded := asmCode_loaded
  returnAddress := by decide
  eip := rfl
  regs := by
    have hesp : (returnCpu ebp).reg .esp = 0x5fff00 := rfl
    rw [hesp, returnCpu, read32_storeWords_of_apart _ _ _ (.inl (by decide))]
    exact read32_storeWords _ _ 0x5fff04 0 _ rfl (by decide)
  room := by
    have hesp : (returnCpu ebp).reg .esp = 0x5fff00 := rfl
    rw [hesp]
    exact ⟨by decide, by decide, by decide, by decide⟩
  memory t ht := by
    cases ht
    refine holdsRegisters_storeWords _ _ fun w hw => ?_
    simp only [Registers.words, InterruptFrame.saved, userFrame, List.mem_cons, List.not_mem_nil,
      or_false, userCodeSegment, userDataSegment] at hw
    omega

theorem userFrame_fromUser (ebp : ℕ) : (userFrame ebp).FromUser := by
  constructor <;> simp [userFrame, userCodeSegment, userDataSegment]

/-- A program that runs with the kernel's stack pointer in `ebp` is resumed as it was,
after another task has run. -/
theorem userFrame_resumed :
    ∃ c', Runs (fun f _ => f) asmCode (returnCpu 0x5fff00) c' ∧
      Transparent (userFrame 0x5fff00) c' := by
  have hswitch : (∃ c', Runs (fun f _ => f) asmCode (returnCpu 0x5fff00) c' ∧ _) ∧ _ :=
    contextSwitch_transparent_iff (userFrame_fromUser 0x5fff00)
      (first_saved 0x5fff00) (round_of_switches 0x5fff00) (returnCpu_entry (by decide))
  obtain ⟨⟨c', hruns, hiretd⟩, hiff⟩ := hswitch
  exact ⟨c', hruns, (hiff c' _ hruns hiretd).mpr ⟨rfl, by decide⟩⟩

/-- A program that is interrupted with another `ebp` is resumed with the kernel's. -/
theorem contextSwitch_not_transparent :
    ¬∀ (alu : AluFlags) (k k₁ k₂ : Kernel) (task : ℕ) (frame : InterruptFrame)
      (tr : List (Kernel × SwitchCall × Kernel)) (code : Code) (addrs : ℕ → ℕ) (c c' : Cpu) (n : ℕ),
      frame.FromUser → taskSaveState task frame k = some ((), k₁) →
      Trace (SwitchStep task) k₁ tr k₂ → TaskReturnEntry code addrs k₂ task c →
      Runs alu code c c' → code c'.eip = some (.iretd, n) → Transparent frame c' := by
  intro hall
  have hentry := returnCpu_entry (show 0x3ff000 < 4294967296 by decide)
  have hreturn : ∃ c', Runs (fun f _ => f) asmCode (returnCpu 0x3ff000) c' ∧ _ :=
    taskReturn_runs hentry.room hentry.loaded hentry.returnAddress hentry.eip rfl hentry.regs
  obtain ⟨c', hruns, hiretd, hat⟩ := hreturn
  have htrans := hall _ twoTasks (firstSaved 0x3ff000) _ 0x1000000 (userFrame 0x3ff000) _ _ _ _
    c' _ (userFrame_fromUser _) (first_saved _) (round_of_switches _) hentry hruns hiretd
  have hebp := ((transparent_iff (userFrame_fromUser _) rfl (hentry.memory _ rfl) (by decide)
    hat).mp htrans).1
  revert hebp
  decide

end Hyperion
