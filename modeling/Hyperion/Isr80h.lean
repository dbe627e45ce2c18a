import Hyperion.System
import Hyperion.SystemCall
import Hyperion.SystemCallAsm

/-!
# System calls from end to end

The ten commands are registered in the order of their numbers, and any other number in `eax` is
answered with 0 (`isr80hHandleCommand_none`). The functions of the library make the call so that
the command is theirs and item 0 of the caller's stack is their argument
(`isr80hHandler_library`).

The commands are put into the table one after the other, from the next free number on
(`isr80hRegisterCommand_foldlM`), and to register them again is a panic
(`isr80hRegisterCommands_eq`). `Serves` is the kernel at the moment of an interrupt : the current
task with its space, and the kernel's own directory. `isr80hHandler_run` goes from the entry of
`isr80h_handler` to the command : the frame is saved to the task and the kernel's directory is
loaded.

The argument is read where the program has it, through the page tables of the task
(`ShowsWord`, `taskGetStackItem_run`), with the stack pointer that was saved just before
(`Serves.caller`).
-/

namespace Hyperion

open Partial X86

/-! ## Commands -/

/-- The commands `cs` are registered from the number `i` on. -/
theorem isr80hRegisterCommand_foldlM : ∀ (cs : List Isr80hCommand) (i : ℕ) (s : Idt),
    i + cs.length ≤ maxIsr80hCommands → (∀ n, i ≤ n → s.isr80hCommands n = none) →
    (cs.zipIdx i).foldlM (fun s x => isr80hRegisterCommand x.2 x.1 s) s = some { s with
      isr80hCommands := fun n => if n < i then s.isr80hCommands n else cs[n - i]? }
  | [], i, s, _, h => by
    show some s = _
    congr 1
    have htable : s.isr80hCommands = fun n => if n < i then s.isr80hCommands n else none := by
      funext n
      split_ifs with hn
      · rfl
      · exact h n (by omega)
    simp only [List.getElem?_nil, ← htable]
  | c :: cs, i, s, hlen, h => by
    rw [List.length_cons] at hlen
    have hin : ¬((i : Int) < 0 ∨ (maxIsr80hCommands : Int) ≤ i) := by omega
    have hone : isr80hRegisterCommand i c s = some { s with
        isr80hCommands := Function.update s.isr80hCommands i (some c) } := by
      rw [isr80hRegisterCommand, if_neg hin, Int.toNat_natCast, if_neg (by rw [h i le_rfl]; simp)]
    rw [List.zipIdx_cons, List.foldlM_cons, hone]
    show List.foldlM _ _ _ = _
    rw [isr80hRegisterCommand_foldlM cs (i + 1) _ (by omega) fun n hn => by
      show Function.update _ _ _ _ = _
      rw [Function.update_of_ne (by omega)]
      exact h n (by omega)]
    congr 2
    funext n
    rcases Nat.lt_trichotomy n i with hn | rfl | hn
    · rw [if_pos (by omega), if_pos hn]
      exact Function.update_of_ne (by omega) _ _
    · rw [if_pos (by omega), if_neg (by omega), Nat.sub_self]
      exact Function.update_self ..
    · rw [if_neg (by omega), if_neg (by omega), show n - i = n - (i + 1) + 1 by omega]
      rfl

/-- With no commands before there are ten, and a second call panics. -/
theorem isr80hRegisterCommands_eq {s : Idt} (h : ∀ n, s.isr80hCommands n = none) :
    isr80hRegisterCommands s = some { s with isr80hCommands := fun n => systemCommands[n]? } := by
  rw [isr80hRegisterCommands, isr80hRegisterCommand_foldlM _ 0 s (by decide) fun n _ => h n]
  simp

/-- The ten commands are registered. -/
def Idt.Registered (s : Idt) : Prop := ∀ n, s.isr80hCommands n = systemCommands[n]?

variable {s : System} {fuel command args : ℕ} {buf : LocalArray}

theorem isr80hHandleCommand_some {c : Isr80hCommand} (hs : s.idt.Registered)
    (hc : systemCommands[command]? = some c) :
    isr80hHandleCommand fuel buf command s = c.run fuel buf s := by
  have hlt : command < 10 := (List.getElem?_eq_some_iff.mp hc).1
  have hsigned : asSigned command = command := asSigned_of_lt (by omega)
  have hin : ¬((command : Int) < 0 ∨ (maxIsr80hCommands : Int) ≤ command) := by
    have : (maxIsr80hCommands : Int) = 1024 := rfl
    omega
  simp only [isr80hHandleCommand, run_bind, run_get, Option.bind_some, hsigned, if_neg hin,
    Int.toNat_natCast, hs command, hc]

/-- Any word but the ten is answered with 0. -/
theorem isr80hHandleCommand_none (hs : s.idt.Registered) (hlow : 10 ≤ command)
    (hlt : command < 4294967296) :
    isr80hHandleCommand fuel buf command s = some (.returned 0, s) := by
  simp only [isr80hHandleCommand, run_bind, run_get, Option.bind_some]
  by_cases hout : asSigned command < 0 ∨ (maxIsr80hCommands : Int) ≤ asSigned command
  · rw [if_pos hout]
    rfl
  · have hnone : s.idt.isr80hCommands (asSigned command).toNat = none := by
      rw [hs]
      refine List.getElem?_eq_none ?_
      show 10 ≤ _
      unfold asSigned at hout ⊢
      omega
    rw [if_neg hout, hnone]
    rfl

/-! ## Items of the stack -/

section

variable {k : Kernel} {t : Task} {d dk sp index task : ℕ} {f e : ℕ → ℕ} {m : X86.Memory}

/-- The space `e` shows a program the bytes of `m` at the word `sp`. -/
def ShowsWord (k : Kernel) (e : ℕ → ℕ) (m : X86.Memory) (sp : ℕ) : Prop :=
  ∀ i < 4, e ((sp + i) / 4096) &&& pagingIsPresent ≠ 0 ∧ k.mem (translate e (sp + i)) = m (sp + i)

/-- `task_get_stack_item` reads what the program has on its stack, and leaves the kernel's
directory loaded. -/
theorem taskGetStackItem_run (h0 : task ≠ 0) (hself : k.store task = some (.task t))
    (hm : Maps k t.pageDirectory d f e) (hchunk : k.kernelChunk ≠ 0)
    (hkernel : k.store k.kernelChunk = some (.chunk dk)) (hsp : t.registers.esp + 4 * index = sp)
    (hlt : sp + 4 ≤ 4294967296) (hw : ShowsWord k e m sp) :
    taskGetStackItem task index k = some (read32 m sp, { k with currentDirectory := dk }) := by
  have hm' : Maps { k with currentDirectory := d } t.pageDirectory d f e := hm.congr fun _ _ => rfl
  have hswitch : pagingSwitch t.pageDirectory k = some ((), { k with currentDirectory := d }) := by
    simp only [pagingSwitch, run_bind, hm.getChunk_run, Option.bind_some]
    rfl
  have hread : ∀ i < 4, readVirtual d ((sp + i) % 4294967296) { k with currentDirectory := d } =
      some (m (sp + i), { k with currentDirectory := d }) := by
    intro i hi
    obtain ⟨hp, hb⟩ := hw i hi
    rw [Nat.mod_eq_of_lt (by omega), readVirtual_run hm' (by omega) hp]
    exact congrArg (fun b => some (b, _)) hb
  have hback : kernelPage { k with currentDirectory := d } =
      some ((), { k with currentDirectory := dk }) := by
    have hget : getChunk k.kernelChunk { k with currentDirectory := d } =
        some (dk, { k with currentDirectory := d }) := by
      simp [getChunk, run_bind, Kernel.getObj_run hchunk
        (show ({ k with currentDirectory := d } : Kernel).store _ = _ from hkernel), run_pure]
    simp only [kernelPage, run_bind, run_get, Option.bind_some, pagingSwitch, hget]
    rfl
  have hzero := hread 0 (by decide)
  rw [Nat.add_zero, Nat.mod_eq_of_lt (by omega)] at hzero
  have hget : getTask task k = some (t, k) := by
    simp [getTask, run_bind, Kernel.getObj_run h0 hself, run_pure]
  simp only [taskGetStackItem, run_bind, hget, Option.bind_some, hsp,
    Nat.mod_eq_of_lt (show sp < 4294967296 by omega), hswitch, hm'.getChunk_run, hzero,
    hread 1 (by decide), hread 2 (by decide), hread 3 (by decide), hback, run_pure]
  rfl

end

/-! ## The functions of the library -/

/-- What the functions of the library are for. -/
def libraryCommands : List (List Trap.Instr × Isr80hCommand × ℕ) := [
  (Asm.print, .command1Print, 1),
  (Asm.hardikhyperionosGetkey, .command2Getkey, 0),
  (Asm.hardikhyperionosPutchar, .command3Putchar, 1),
  (Asm.hardikhyperionosMalloc, .command4Malloc, 1),
  (Asm.hardikhyperionosFree, .command5Free, 1),
  (Asm.hardikhyperionosProcessLoadStart, .command6ProcessLoadStart, 1),
  (Asm.hardikhyperionosSystem, .command7InvokeSystemCommand, 1),
  (Asm.hardikhyperionosProcessGetArguments, .command8GetProgramArguments, 1),
  (Asm.hardikhyperionosExit, .command9Exit, 0)]

theorem libraryCommands_of_mem {is : List Trap.Instr} (h : (is, command, args) ∈ systemStubs) :
    ∃ c, (is, c, args) ∈ libraryCommands ∧ systemCommands[command]? = some c := by
  simp only [systemStubs, List.mem_cons, List.not_mem_nil, or_false, Prod.mk.injEq] at h
  rcases h with ⟨rfl, rfl, rfl⟩ | ⟨rfl, rfl, rfl⟩ | ⟨rfl, rfl, rfl⟩ | ⟨rfl, rfl, rfl⟩ |
    ⟨rfl, rfl, rfl⟩ | ⟨rfl, rfl, rfl⟩ | ⟨rfl, rfl, rfl⟩ | ⟨rfl, rfl, rfl⟩ | ⟨rfl, rfl, rfl⟩
  all_goals exact ⟨_, by simp only [libraryCommands, List.mem_cons, true_or, or_true], rfl⟩

variable {is : List Trap.Instr} {c : Isr80hCommand} {t : Task} {d dk ip esp0 : ℕ} {f e : ℕ → ℕ}
  {u uc : Cpu}

/-- The current task is `t`, in the space `e`. -/
structure Serves (s : System) (t : Task) (d dk : ℕ) (f e : ℕ → ℕ) : Prop where
  registered : s.idt.Registered
  ne_zero : s.kernel.currentTask ≠ 0
  self : s.kernel.store s.kernel.currentTask = some (.task t)
  maps : Maps s.kernel t.pageDirectory d f e
  chunk_ne : s.kernel.kernelChunk ≠ 0
  chunk : s.kernel.store s.kernel.kernelChunk = some (.chunk dk)

/-- The kernel when the frame is saved and its own directory loaded. -/
def System.saved (s : System) (t : Task) (frame : InterruptFrame) (dk : ℕ) : System :=
  { s with kernel := { s.kernel.put s.kernel.currentTask
      (.task { t with registers := frame.saved }) with currentDirectory := dk } }

namespace Serves

variable (h : Serves s t d dk f e) {frame : InterruptFrame}
include h

/-- Nothing but the task is stored anew. -/
theorem saved_store {a : ℕ} {o : Obj} (hne : ∀ t, o ≠ .task t)
    (ha : s.kernel.store a = some o) : (s.saved t frame dk).kernel.store a = some o := by
  have hat : a ≠ s.kernel.currentTask := by
    rintro rfl
    rw [h.self] at ha
    exact hne t (Option.some.inj ha).symm
  exact (if_neg hat).trans ha

theorem saved_maps : Maps (s.saved t frame dk).kernel t.pageDirectory d f e where
  chunk_ne := h.maps.chunk_ne
  directory_ne := h.maps.directory_ne
  table_ne := h.maps.table_ne
  inj := h.maps.inj
  chunk := h.saved_store (by simp) h.maps.chunk
  directory := h.saved_store (by simp) h.maps.directory
  table i hi := by
    obtain ⟨g, hg, he⟩ := h.maps.table i hi
    exact ⟨g, h.saved_store (by simp) hg, he⟩

/-- Before the command the kernel saves the frame. -/
theorem isr80hHandler_run : isr80hHandler fuel buf command frame s =
    (isr80hHandleCommand fuel buf command >>= isr80hReturn) (s.saved t frame dk) := by
  have hpage : kernelPage s.kernel = some ((), { s.kernel with currentDirectory := dk }) := by
    have hget : getChunk s.kernel.kernelChunk s.kernel = some (dk, s.kernel) := by
      simp [getChunk, run_bind, Kernel.getObj_run h.chunk_ne h.chunk, run_pure]
    simp only [kernelPage, run_bind, run_get, Option.bind_some, pagingSwitch, hget]
    rfl
  have hsave : taskCurrentSaveState frame { s.kernel with currentDirectory := dk } =
      some ((), (s.saved t frame dk).kernel) := by
    have hget : getTask s.kernel.currentTask { s.kernel with currentDirectory := dk } =
        some (t, { s.kernel with currentDirectory := dk }) := by
      simp [getTask, run_bind, Kernel.getObj_run h.ne_zero (show
        ({ s.kernel with currentDirectory := dk } : Kernel).store _ = _ from h.self), run_pure]
    simp only [taskCurrentSaveState, run_bind, run_get, Option.bind_some, if_neg h.ne_zero,
      taskSaveState, modifyTask, hget, putObj]
    rfl
  simp only [isr80hHandler, run_bind, inKernel, hpage, Option.map_some, Option.bind_some, hsave]
  rfl

/-- Item 0 of the stack is what the program has on top of it. -/
theorem caller (hw : ShowsWord s.kernel e uc.mem (uc.reg .esp))
    (hsp : uc.reg .esp + 4 ≤ 4294967296) :
    Caller (s.saved t (frameOf uc ip esp0) dk).kernel
      { t with registers := (frameOf uc ip esp0).saved } d f e
      (read32 uc.mem (uc.reg .esp)) where
  ne_zero := h.ne_zero
  self := if_pos rfl
  maps := h.saved_maps
  item := ⟨_, taskGetStackItem_run h.ne_zero (if_pos rfl) h.saved_maps h.chunk_ne
    (h.saved_store (by simp) h.chunk) rfl hsp hw⟩

end Serves

/-- A function of the library comes with its command to `isr80h_handler`, which saves the frame,
runs what the function is for and pages back to the task. Where the function has an argument, it
is item 0 of the caller's stack. -/
theorem isr80hHandler_library (h : (is, command, args) ∈ systemStubs) :
    ∃ c, (is, c, args) ∈ libraryCommands ∧
      ∀ {s : System} {t : Task} {d dk : ℕ} {f e : ℕ → ℕ} {u uc : Cpu},
        AtInt command args u uc → Serves s t d dk f e → ∀ fuel buf ip esp0,
        isr80hHandler fuel buf command (frameOf uc ip esp0) s =
          (c.run fuel buf >>= isr80hReturn) (s.saved t (frameOf uc ip esp0) dk) ∧
        (args = 1 → uc.reg .esp + 4 ≤ 4294967296 →
          ShowsWord s.kernel e uc.mem (uc.reg .esp) →
          Caller (s.saved t (frameOf uc ip esp0) dk).kernel
            { t with registers := (frameOf uc ip esp0).saved } d f e
            (read32 u.mem (u.reg .esp + 4))) := by
  obtain ⟨c, hlibrary, hc⟩ := libraryCommands_of_mem h
  refine ⟨c, hlibrary, fun hint hserves fuel buf ip esp0 => ⟨?_, fun ha hsp hw => ?_⟩⟩
  · rw [hserves.isr80hHandler_run, run_bind, run_bind,
      isr80hHandleCommand_some (s := System.saved _ _ _ _) hserves.registered hc]
  · rw [← hint.argument ha]
    exact hserves.caller hw hsp

/-- The program at the `int` of `hardikhyperionos_malloc(0x1407)`. -/
def mallocCpu : Cpu where
  reg := fun r => if r = .eax then 4 else if r = .ebp then 0x3fefdc else
    if r = .esp then 0x3fefd8 else 7
  sreg := userCpu.sreg
  eflags := userCpu.eflags
  eip := 0x40001c
  mem := fun a => if a = 0x3fefd8 then 7 else if a = 0x3fefd9 then 20 else
    if a = 0x3fefdc then 7 else if a = 0x3fefe4 then 7 else if a = 0x3fefe5 then 20 else 0

/-- The kernel when that program is the current task. -/
def mallocSystem : System where
  kernel := Kernel.calling 7 mallocCpu.mem
  idt := { stubIdt with isr80hCommands := fun n => systemCommands[n]? }
  terminal := ⟨fun _ => 0, 0, 0, []⟩
  capslockState := false

theorem isr80hHandler_library_malloc :
    AtInt 4 1 { mallocCpu with reg := userCpu.reg } mallocCpu ∧
      Caller (mallocSystem.saved callingTask (frameOf mallocCpu 0x400020 0x600000) 8192).kernel
        { callingTask with registers := (frameOf mallocCpu 0x400020 0x600000).saved } 8192
        (fun i => (12288 + i * 4096) ||| userPageFlags) (fun n => n * 4096 ||| 7) 0x1407 := by
  have hint : AtInt 4 1 { mallocCpu with reg := userCpu.reg } mallocCpu :=
    ⟨rfl, rfl, rfl, fun q h₁ h₂ h₃ => by simp [mallocCpu, userCpu, h₁, h₂, h₃], fun _ => rfl, rfl,
      rfl, rfl, fun _ _ => rfl⟩
  have hserves : Serves mallocSystem callingTask 8192 8192
      (fun i => (12288 + i * 4096) ||| userPageFlags) (fun n => n * 4096 ||| 7) :=
    ⟨fun _ => rfl, show (0x901000 : ℕ) ≠ 0 by decide, rfl, Kernel.calling_maps,
      show (4096 : ℕ) ≠ 0 by decide, rfl⟩
  refine ⟨hint, ?_⟩
  obtain ⟨_, -, hall⟩ := isr80hHandler_library
    (show (Asm.hardikhyperionosMalloc, 4, 1) ∈ systemStubs by simp [systemStubs])
  refine (hall hint hserves 0 (.fresh fun _ => 0) 0x400020 0x600000).2 rfl (by decide)
    fun i hi => ⟨?_, ?_⟩
  · have hpage : (0x3fefd8 + i) / 4096 = 0x3fe := by omega
    show ((0x3fefd8 + i) / 4096 * 4096 ||| 7) &&& pagingIsPresent ≠ 0
    rw [hpage]
    decide
  · show mallocCpu.mem (translate _ (0x3fefd8 + i)) = mallocCpu.mem (0x3fefd8 + i)
    have hpage : (0x3fefd8 + i) / 4096 = 0x3fe := by omega
    have hentry : (0x3fefd8 + i) / 4096 * 4096 ||| 7 = 0x3fe000 ||| 7 := by rw [hpage]
    rw [translate_of_entry hentry (by decide) (by decide) (by decide)]
    congr 1
    omega

end Hyperion
