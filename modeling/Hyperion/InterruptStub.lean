import Hyperion.Idt
import Hyperion.Task

/-!
# `idt.asm`

Interrupt `i` comes to the routine `int i`, which stores the registers under what the processor
has pushed and calls `interrupt_handler` with a pointer to all of it. The routine is run
instruction by instruction, in three parts :

* the interrupt and the pushes, up to the call (`interruptStub_enters`). What the handler finds
  behind its pointer is a `struct interrupt_frame` with the registers of the program;
* the handler, a C function of which only `Returned` is assumed : it comes back to its caller with
  the stack pointer in place and has not changed the frame;
* the pops and `iretd` (`interruptStub_resumes`).

Together they say that a program that is interrupted in user mode is resumed in the state it was
in (`interrupt_transparent`). This holds of the vectors of `TableVector`. Vectors 0 and 0x80 have
routines of their own, and for some exceptions the processor pushes an error code that the routine
neither expects nor takes off again, so that the frame is off by a word.
-/

namespace Hyperion

open X86 X86.Trap

/-- `int%1`, with `interrupt_handler` at `handler`. -/
def interruptStub (i handler : ℕ) : List Trap.Instr := [
  .op .pushad,
  .op (.straight (.push .esp)),
  .op (.pushImm i),
  .call handler,
  .op (.straight (.add .esp 8)),
  .op .popad,
  .iretd]

/-! ## The frame -/

/-- The fields of `struct interrupt_frame` in order. -/
def InterruptFrame.words (f : InterruptFrame) : List ℕ :=
  [f.edi, f.esi, f.ebp, f.reserved, f.ebx, f.edx, f.ecx, f.eax, f.ip, f.cs, f.flags, f.esp, f.ss]

/-- The bytes at `p` are the frame `f`. -/
def HoldsFrame (m : Memory) (p : ℕ) (f : InterruptFrame) : Prop :=
  ∀ i w, f.words[i]? = some w → read32 m (p + 4 * i) = w

/-- The frame of `u`, interrupted in user mode before `ip`, on a stack that begins at `esp0`. -/
def frameOf (u : Cpu) (ip esp0 : ℕ) : InterruptFrame where
  edi := u.reg .edi
  esi := u.reg .esi
  ebp := u.reg .ebp
  reserved := esp0 - 20
  ebx := u.reg .ebx
  edx := u.reg .edx
  ecx := u.reg .ecx
  eax := u.reg .eax
  ip := ip
  cs := u.sreg .cs
  flags := u.eflags
  esp := u.reg .esp
  ss := u.sreg .ss

/-- A program in user mode, with a stack in ring 0 that has room for the frame and what the
routines of `idt.asm` push below it. -/
structure Interruptible (t : Tables) (u : Cpu) (ip : ℕ) : Prop where
  user : u.sreg .cs % 4 ≠ 0
  fits : u.Fits
  ip : ip < 4294967296
  room : 64 ≤ t.esp0
  top : t.esp0 < 4294967296

/-- The C function at `target` is entered with the arguments `arg` and a pointer to the frame of
`u`, to return to `ra`. -/
structure AtHandler (t : Tables) (u : Cpu) (ip arg ra target : ℕ) (c : Cpu) : Prop where
  eip : c.eip = target
  esp : c.reg .esp + 64 = t.esp0
  returnAddress : read32 c.mem (c.reg .esp) = ra
  arg : read32 c.mem (c.reg .esp + 4) = arg
  pointer : read32 c.mem (c.reg .esp + 8) = t.esp0 - 52
  frame : HoldsFrame c.mem (t.esp0 - 52) (frameOf u ip t.esp0)
  memory : ∀ b, b < t.esp0 - 64 ∨ t.esp0 ≤ b → c.mem b = u.mem b

/-- The C function that was entered in `c` has returned in `c'`, and the 52 bytes of the frame
are as they were. -/
structure Returned (t : Tables) (c c' : Cpu) : Prop where
  eip : c'.eip = c.top
  esp : c'.reg .esp = c.reg .esp + 4
  frame : ∀ b, t.esp0 - 52 ≤ b → b < t.esp0 → c'.mem b = c.mem b

variable {alu : AluFlags} {t : Tables} {code : Trap.Code} {addrs : ℕ → ℕ} {u c c' : Cpu}
  {n i ip arg ra target handler : ℕ}

/-- The routine has the frame on its stack again, under the two arguments. -/
theorem Returned.window (hc : AtHandler t u ip arg ra target c) (h : Returned t c c') :
    ∃ w₁ w₂, Window (t.esp0 - 64) t.esp0 c'.mem
      (w₁ :: w₂ :: (frameOf u ip t.esp0).words) (fun _ => none) none c' := by
  have hesp := hc.esp
  have hesp' := h.esp
  refine ⟨read32 c'.mem (c'.reg .esp), read32 c'.mem (c'.reg .esp + 4), ?_, ?_, fun _ _ => rfl,
    by simp, by simp⟩
  · simp only [List.length_cons, InterruptFrame.words, List.length_nil]
    omega
  · intro i w hi
    rcases i with _ | _ | i
    · simpa using hi
    · simpa using hi
    · have hlen := (List.getElem?_eq_some_iff.mp hi).1
      simp only [List.length_cons, InterruptFrame.words, List.length_nil] at hlen
      rw [← hc.frame i w (by simpa using hi),
        show c'.reg .esp + 4 * (i + 1 + 1) = t.esp0 - 52 + 4 * i by omega]
      exact read32_congr fun b hb hb' => h.frame b (by omega) (by omega)

/-- What the routines push before they call. -/
theorem Window.atHandler {known : Reg → Option ℕ} {flags : Option ℕ}
    (h : Window (t.esp0 - 64) t.esp0 u.mem
      (ra :: arg :: (t.esp0 - 52) :: (frameOf u ip t.esp0).words) known flags c) :
    AtHandler t u ip arg ra target (c.goto target) where
  eip := rfl
  esp := h.esp
  returnAddress := h.word 0 _ rfl
  arg := h.word 1 _ rfl
  pointer := h.word 2 _ rfl
  frame i w hi := by
    have hesp : c.reg .esp + 64 = t.esp0 := h.esp
    have hw := h.word (i + 3) w (by simpa using hi)
    rw [← hw]
    show read32 c.mem _ = read32 c.mem _
    congr 1
    omega
  memory := h.frame

/-! ## The routine -/

/-- The frame is complete and its address is on the stack. -/
theorem trap_pushes (hu : Interruptible t u ip) {os : List Op} {Q : Cpu → Prop}
    (hQ : ∀ c', Window (t.esp0 - 64) t.esp0 u.mem ((t.esp0 - 52) :: (frameOf u ip t.esp0).words)
      (Window.knows u.reg) (some (gateFlags u.eflags)) c' → Trap.After alu c' os Q) :
    Trap.After alu (u.trap t n ip) (.pushad :: .straight (.push .esp) :: os) Q := by
  have hroom := hu.room
  have htop := hu.top
  have h : Window (t.esp0 - 64) t.esp0 u.mem _ _ _ (u.trap t n ip) :=
    Window.trap hu.user hu.fits hu.ip (by omega) hu.top
  refine h.pushad hu.top (by simp; omega) hu.fits.reg fun c h => ?_
  exact h.pushEsp hu.top (by simp [Window.savedRegisters]; omega) hQ

/-- From the interrupt the routine comes to its call. -/
theorem interruptStub_enters (hu : Interruptible t u ip)
    (hcode : Trap.Loaded code addrs (interruptStub i handler))
    (hgate : (t.gate n).offset = addrs 0) (hi : i < 4294967296) (hra : addrs 4 < 4294967296) :
    ∃ c, Trap.Runs alu t code (u.trap t n ip) c ∧ AtHandler t u ip i (addrs 4) handler c := by
  have hroom := hu.room
  have htop := hu.top
  have hafter : Trap.After alu (u.trap t n ip)
      [.pushad, .straight (.push .esp), .pushImm i] fun c' =>
        Window (t.esp0 - 64) t.esp0 u.mem (i :: (t.esp0 - 52) :: (frameOf u ip t.esp0).words)
          (Window.knows u.reg) (some (gateFlags u.eflags)) c' := by
    refine trap_pushes hu fun c h => ?_
    exact h.pushImm (by omega) (by simp [InterruptFrame.words]; omega) hi fun _ h => h
  obtain ⟨c, hruns, h⟩ := hafter.runs (t := t) hcode ⟨_, rfl⟩ hgate
  have hcall : Trap.Runs alu t code (c.goto (addrs 3)) _ := .single (hcode 3 _ rfl) rfl
  refine ⟨_, hruns.trans hcall, ?_⟩
  exact Window.atHandler ((h.goto _).push (by omega) (by simp [InterruptFrame.words]; omega) hra)

/-- From the return of the handler the routine comes back to the program. -/
theorem interruptStub_resumes (hu : Interruptible t u ip)
    (hcode : Trap.Loaded code addrs (interruptStub i handler))
    (hc : AtHandler t u ip i (addrs 4) handler c) (hret : Returned t c c') :
    ∃ r, Trap.Runs alu t code c' r ∧ Resumed u ip r ∧
      ∀ b, b < t.esp0 - 64 ∨ t.esp0 ≤ b → r.mem b = c'.mem b := by
  obtain ⟨w₁, w₂, h⟩ := hret.window hc
  have heip : c'.eip = addrs 4 := hret.eip.trans hc.returnAddress
  have hafter : Trap.After alu c' [.straight (.add .esp 8), .popad] fun c₁ =>
      Window (t.esp0 - 64) t.esp0 c'.mem
        [ip, u.sreg .cs, u.eflags, u.reg .esp, u.sreg .ss] (Window.knows u.reg) none c₁ :=
    h.add_esp_two hu.top fun _ h => Window.popad (e := t.esp0 - 20) h hu.top fun _ h => h
  obtain ⟨c₁, hruns, h₁⟩ := hafter.runs (t := t) hcode ⟨_, rfl⟩ heip
  have hiretd : Trap.Runs alu t code (c₁.goto (addrs 6)) _ := .single (hcode 6 _ rfl) rfl
  obtain ⟨hreg, hesp, hcs, hss, hflags, hip, hmem⟩ := (h₁.goto (addrs 6)).iretd hu.top hu.user
    (hu.fits.sreg .cs) (hu.fits.sreg .ss)
  refine ⟨_, hruns.trans hiretd, ⟨fun r => ?_, hcs, hss, hflags, hip⟩, fun b hb => ?_⟩
  · by_cases hr : r = .esp
    · rw [hr, hesp]
    · exact hreg r _ hr rfl
  · rw [hmem]
    exact h₁.frame b hb

/-! ## The interrupts of the table -/

/-- The interrupt comes to a routine of the table, by an entry that pushes no error code. -/
structure TableVector (n : ℕ) : Prop where
  vector : n < 256
  notZero : n ≠ 0
  notSystemCall : n ≠ 0x80
  noErrorCode : n ∉ errorCodeVectors

/-- An interrupt of a program in user mode by such a vector comes to `interrupt_handler` with its
number and a frame that is the program's state. The program may raise it as well. When the handler
returns, the program goes on in that state. -/
theorem interrupt_transparent {m : Memory} {base : ℕ} {table : ℕ → UInt32}
    {zero wrapper idtr : UInt32} {s : Idt}
    (hm : HoldsIdt m base (idtInit table zero wrapper idtr s)) (hv : TableVector n)
    (hcode : Trap.Loaded code addrs (interruptStub n handler))
    (haddr : addrs 0 = (table n).toNat) (hra : addrs 4 < 4294967296)
    (hu : Interruptible (kernelTables m base) u ip) :
    (Trap.Instr.int n).exec alu (kernelTables m base) u ip =
        some (u.trap (kernelTables m base) n ip) ∧
      ∃ c, Trap.Runs alu (kernelTables m base) code (u.trap (kernelTables m base) n ip) c ∧
        AtHandler (kernelTables m base) u ip n (addrs 4) handler c ∧
        ∀ c', Returned (kernelTables m base) c c' →
          ∃ r, Trap.Runs alu (kernelTables m base) code c' r ∧ Resumed u ip r ∧
            ∀ b, b < 0x600000 - 64 ∨ 0x600000 ≤ b → r.mem b = c'.mem b := by
  have hn : n < totalInterrupts := Nat.lt_trans hv.vector (by decide)
  have hgate := idtInit_gate hm hn
  have hoffset : ((kernelTables m base).gate n).offset = addrs 0 := by
    rw [hgate, haddr, vectorAddress, if_neg hv.notSystemCall, if_neg hv.notZero]
  have hdpl : u.sreg .cs % 4 ≤ ((kernelTables m base).gate n).dpl := by
    rw [idtInit_dpl hm hn]
    omega
  have hlt : n < 4294967296 := Nat.lt_trans hn (show 512 < 4294967296 by decide)
  obtain ⟨c, hruns, hc⟩ : ∃ c, Trap.Runs alu (kernelTables m base) code _ c ∧ _ :=
    interruptStub_enters hu hcode hoffset hlt hra
  exact ⟨if_pos hdpl, c, hruns, hc, fun c' hret => interruptStub_resumes hu hcode hc hret⟩

/-! ## The keyboard's interrupt -/

/-- A program at 0x400010. -/
def userCpu : Cpu where
  reg := fun r => if r = .esp then 0x3fefe0 else 7
  sreg := fun s => if s = .cs then userCodeSegment else userDataSegment
  eflags := 0x246
  eip := 0x400010
  mem := fun _ => 0

theorem userCpu_interruptible (m : Memory) (base : ℕ) :
    Interruptible (kernelTables m base) userCpu 0x400010 where
  user := by decide
  fits := ⟨fun r => by unfold userCpu; dsimp only; split <;> decide,
    fun s => by unfold userCpu; dsimp only; split <;> decide, by decide⟩
  ip := by decide
  room := show 64 ≤ 0x600000 by decide
  top := show 0x600000 < 4294967296 by decide

theorem interrupt_transparent_keyboard :
    ∃ c, AtHandler (kernelTables (idtMemory 0x106000 stubIdt) 0x106000) userCpu 0x400010 0x21
      0x101430 0x107000 c := by
  obtain ⟨-, c, -, hc, -⟩ : _ ∧ ∃ c, Trap.Runs (fun f _ => f) _ _ _ c ∧ _ :=
    interrupt_transparent (idtMemory_holds 0x106000 stubIdt)
      (show TableVector 0x21 from ⟨by decide, by decide, by decide, by decide⟩)
      (layout_loaded 0x101420 _) (by decide) (by decide)
      (userCpu_interruptible _ _)
  exact ⟨c, hc⟩

end Hyperion
