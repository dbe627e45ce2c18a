import Hyperion.InterruptStub

/-!
# The way of a system call

The functions of `hardikhyperionos.asm` put a command in `eax` and their argument on the stack
and raise interrupt 0x80. `isr80h_wrapper` calls `isr80h_handler` with the command and the frame,
and puts what it returns in `eax`. So a program calls a function of the kernel as it calls one
of its own (`systemCall_returns`).

The functions are lists of instructions with the source's words, of two shapes
(`StubShape`), so that one proof goes through all of them : up to the `int`
(`StubShape.at_int`), and from behind it back to the caller (`StubShape.finishes`). The wrapper is
run in two halves as well, up to its call (`isr80hWrapper_enters`) and from the return of the
handler to the program (`isr80hWrapper_answers`). In between is the handler, of which nothing is
asked but that it returns and leaves the frame and the program's return address alone.

The program, the wrapper and the two stacks are anywhere in memory, as long as they are apart
(`StubEntered`). When the call is over the registers that a caller relies on are those from before
it, with the result in `eax` (`CallReturned`).
-/

namespace Hyperion

open X86 X86.Trap

/-! ## `hardikhyperionos.asm` -/

/-- A function that sets up a system call and cleans the stack behind it. -/
def systemStub (setup clean : List Op) : List Trap.Instr :=
  (Op.straight (.push .ebp) :: Op.straight (.mov .ebp .esp) :: setup).map .op ++ [.int 0x80] ++
    (clean ++ [Op.straight (.pop .ebp)]).map .op ++ [.ret]

/-- A function without arguments. -/
def plainStub (command : ℕ) : List Trap.Instr := systemStub [.movImm .eax command] []

/-- A function with one argument, at `[ebp + 8]`. -/
def argumentStub (command : ℕ) : List Trap.Instr :=
  systemStub [.movImm .eax command, .straight (.pushMem .ebp 8)] [.straight (.add .esp 4)]

namespace Asm

/-- The argument is stored first. -/
def print : List Trap.Instr :=
  systemStub [.straight (.pushMem .ebp 8), .movImm .eax 1] [.straight (.add .esp 4)]

def hardikhyperionosGetkey : List Trap.Instr := plainStub 2

def hardikhyperionosPutchar : List Trap.Instr := argumentStub 3

def hardikhyperionosMalloc : List Trap.Instr := argumentStub 4

def hardikhyperionosFree : List Trap.Instr := argumentStub 5

def hardikhyperionosProcessLoadStart : List Trap.Instr := argumentStub 6

def hardikhyperionosSystem : List Trap.Instr := argumentStub 7

def hardikhyperionosProcessGetArguments : List Trap.Instr := argumentStub 8

def hardikhyperionosExit : List Trap.Instr := plainStub 9

end Asm

/-- The functions of the library, with their command and the number of their arguments. -/
def systemStubs : List (List Trap.Instr × ℕ × ℕ) := [
  (Asm.print, 1, 1),
  (Asm.hardikhyperionosGetkey, 2, 0),
  (Asm.hardikhyperionosPutchar, 3, 1),
  (Asm.hardikhyperionosMalloc, 4, 1),
  (Asm.hardikhyperionosFree, 5, 1),
  (Asm.hardikhyperionosProcessLoadStart, 6, 1),
  (Asm.hardikhyperionosSystem, 7, 1),
  (Asm.hardikhyperionosProcessGetArguments, 8, 1),
  (Asm.hardikhyperionosExit, 9, 0)]

/-! ## `isr80h_wrapper` -/

/-- With `isr80h_handler` at `handler` and `tmp_res` at `tmpRes`. -/
def isr80hWrapper (handler tmpRes : ℕ) : List Trap.Instr := [
  .op .pushad,
  .op (.straight (.push .esp)),
  .op (.straight (.push .eax)),
  .call handler,
  .op (.storeAbs tmpRes .eax),
  .op (.straight (.add .esp 8)),
  .op .popad,
  .op (.loadAbs .eax tmpRes),
  .iretd]

variable {alu : AluFlags} {t : Tables} {code : Trap.Code} {user kern : ℕ → ℕ} {u c c' : Cpu}
  {n ip handler tmpRes command args v : ℕ} {is : List Trap.Instr}

/-- From the interrupt the wrapper comes to its call, with the command from `eax`. -/
theorem isr80hWrapper_enters (hu : Interruptible t u ip)
    (hcode : Trap.Loaded code kern (isr80hWrapper handler tmpRes))
    (hgate : (t.gate n).offset = kern 0) (hra : kern 4 < 4294967296) :
    ∃ c, Trap.Runs alu t code (u.trap t n ip) c ∧
      AtHandler t u ip (u.reg .eax) (kern 4) handler c := by
  have hroom := hu.room
  have htop := hu.top
  have hafter : Trap.After alu (u.trap t n ip)
      [.pushad, .straight (.push .esp), .straight (.push .eax)] fun c' =>
        Window (t.esp0 - 64) t.esp0 u.mem
          (u.reg .eax :: (t.esp0 - 52) :: (frameOf u ip t.esp0).words)
          (Window.knows u.reg) (some (gateFlags u.eflags)) c' := by
    refine trap_pushes hu fun c h => Window.straight ?_
    exact h.pushReg (by omega) (by simp [InterruptFrame.words]; omega) (by decide) rfl
      (hu.fits.reg .eax) fun _ h => h
  obtain ⟨c, hruns, h⟩ := hafter.runs (t := t) hcode ⟨_, rfl⟩ hgate
  have hcall : Trap.Runs alu t code (c.goto (kern 3)) _ := .single (hcode 3 _ rfl) rfl
  refine ⟨_, hruns.trans hcall, ?_⟩
  exact Window.atHandler ((h.goto _).push (by omega) (by simp [InterruptFrame.words]; omega) hra)

/-- The program `u` goes on at `ip` with the result `v`. -/
structure ResumedWith (u : Cpu) (ip v : ℕ) (r : Cpu) : Prop where
  eax : r.reg .eax = v
  reg : ∀ q, q ≠ .eax → r.reg q = u.reg q
  sreg : r.sreg .cs = u.sreg .cs ∧ r.sreg .ss = u.sreg .ss
  eflags : r.eflags = u.eflags
  eip : r.eip = ip

/-- From the return of the handler the wrapper comes back to the program with the result. -/
theorem isr80hWrapper_answers (hu : Interruptible t u ip)
    (hcode : Trap.Loaded code kern (isr80hWrapper handler tmpRes))
    (hc : AtHandler t u ip n (kern 4) handler c) (hret : Returned t c c')
    (hv : c'.reg .eax = v) (hlt : v < 4294967296)
    (htmp : tmpRes + 4 ≤ t.esp0 - 64 ∨ t.esp0 ≤ tmpRes) :
    ∃ r, Trap.Runs alu t code c' r ∧ ResumedWith u ip v r ∧
      ∀ b, b < t.esp0 - 64 ∨ t.esp0 ≤ b → r.mem b = write32 c'.mem tmpRes v b := by
  have hroom := hu.room
  obtain ⟨w₁, w₂, h⟩ := hret.window hc
  have heip : c'.eip = kern 4 := hret.eip.trans hc.returnAddress
  have h' : Window (t.esp0 - 64) t.esp0 c'.mem (w₁ :: w₂ :: (frameOf u ip t.esp0).words)
      (Function.update (fun _ => none) .eax (some v)) none c' := by
    refine ⟨h.esp, h.word, h.frame, fun r w hr hw => ?_, h.eflags⟩
    by_cases hreg : r = .eax
    · subst hreg
      rw [Function.update_self] at hw
      exact hv.trans (Option.some.inj hw)
    · rw [Function.update_of_ne hreg] at hw
      exact absurd hw (by simp)
  have hafter : Trap.After alu c'
      [.storeAbs tmpRes .eax, .straight (.add .esp 8), .popad, .loadAbs .eax tmpRes] fun c₁ =>
      Window (t.esp0 - 64) t.esp0 (write32 c'.mem tmpRes v)
        [ip, u.sreg .cs, u.eflags, u.reg .esp, u.sreg .ss]
        (Function.update (Window.knows u.reg) .eax (some v)) none c₁ := by
    refine h'.storeAbs (by decide) rfl htmp (fun c h => ?_) (by simp [InterruptFrame.words]; omega)
    refine h.add_esp_two hu.top fun c h => ?_
    refine Window.popad (e := t.esp0 - 20) h hu.top fun c h => ?_
    refine h.loadAbs (by decide) htmp fun c h => ?_
    rw [read32_write32_self _ _ hlt] at h
    exact h
  obtain ⟨c₁, hruns, h₁⟩ := hafter.runs (t := t) hcode ⟨_, rfl⟩ heip
  have hiretd : Trap.Runs alu t code (c₁.goto (kern 8)) _ := .single (hcode 8 _ rfl) rfl
  obtain ⟨hreg, hesp, hcs, hss, hflags, hip, hmem⟩ := (h₁.goto (kern 8)).iretd hu.top hu.user
    (hu.fits.sreg .cs) (hu.fits.sreg .ss)
  refine ⟨_, hruns.trans hiretd,
    ⟨hreg .eax v (by decide) rfl, fun q hq => ?_, ⟨hcs, hss⟩, hflags, hip⟩, fun b hb => ?_⟩
  · by_cases hr : q = .esp
    · rw [hr, hesp]
    · exact hreg q _ hr (by rw [Function.update_of_ne hq]; rfl)
  · rw [hmem]
    exact h₁.frame b hb

/-! ## The functions of the library -/

/-- The shapes that a function of the library has. -/
inductive StubShape : (setup clean : List Op) → (command args : ℕ) → Prop
  | plain (command : ℕ) : StubShape [.movImm .eax command] [] command 0
  | argument (command : ℕ) : StubShape [.movImm .eax command, .straight (.pushMem .ebp 8)]
      [.straight (.add .esp 4)] command 1
  | print : StubShape [.straight (.pushMem .ebp 8), .movImm .eax 1]
      [.straight (.add .esp 4)] 1 1

theorem stubShape_of_mem (h : (is, command, args) ∈ systemStubs) : command < 1024 ∧
    ∃ setup clean, is = systemStub setup clean ∧ StubShape setup clean command args := by
  simp only [systemStubs, List.mem_cons, List.not_mem_nil, or_false, Prod.mk.injEq] at h
  rcases h with ⟨rfl, rfl, rfl⟩ | ⟨rfl, rfl, rfl⟩ | ⟨rfl, rfl, rfl⟩ | ⟨rfl, rfl, rfl⟩ |
    ⟨rfl, rfl, rfl⟩ | ⟨rfl, rfl, rfl⟩ | ⟨rfl, rfl, rfl⟩ | ⟨rfl, rfl, rfl⟩ | ⟨rfl, rfl, rfl⟩
  · exact ⟨by decide, _, _, rfl, .print⟩
  · exact ⟨by decide, _, _, rfl, .plain 2⟩
  · exact ⟨by decide, _, _, rfl, .argument 3⟩
  · exact ⟨by decide, _, _, rfl, .argument 4⟩
  · exact ⟨by decide, _, _, rfl, .argument 5⟩
  · exact ⟨by decide, _, _, rfl, .argument 6⟩
  · exact ⟨by decide, _, _, rfl, .argument 7⟩
  · exact ⟨by decide, _, _, rfl, .argument 8⟩
  · exact ⟨by decide, _, _, rfl, .plain 9⟩

/-- A function of the library is entered in user mode. Its stack, that of ring 0 and `tmp_res`
are apart. -/
structure StubEntered (t : Tables) (user : ℕ → ℕ) (tmpRes : ℕ) (u : Cpu) : Prop where
  ring : u.sreg .cs % 4 ≠ 0
  fits : u.Fits
  eip : u.eip = user 0
  below : 8 ≤ u.reg .esp
  above : u.reg .esp + 12 ≤ 4294967296
  room : 64 ≤ t.esp0
  top : t.esp0 < 4294967296
  apart : u.reg .esp + 8 ≤ t.esp0 - 64 ∨ t.esp0 ≤ u.reg .esp - 8
  result : tmpRes + 4 ≤ t.esp0 - 64 ∨ t.esp0 ≤ tmpRes
  result_apart : tmpRes + 4 ≤ u.reg .esp - 8 ∨ u.reg .esp + 8 ≤ tmpRes

/-- The state `c` at the `int` of a function that was entered in `u` : the command is in `eax`,
and the argument, if there is one, on top of the stack. -/
structure AtInt (command args : ℕ) (u c : Cpu) : Prop where
  eax : c.reg .eax = command
  ebp : c.reg .ebp = u.reg .esp - 4
  esp : c.reg .esp + 4 * (args + 1) = u.reg .esp
  reg : ∀ q, q ≠ .eax → q ≠ .ebp → q ≠ .esp → c.reg q = u.reg q
  argument : args = 1 → read32 c.mem (c.reg .esp) = read32 u.mem (u.reg .esp + 4)
  saved : read32 c.mem (u.reg .esp - 4) = u.reg .ebp
  sreg : c.sreg = u.sreg
  eflags : c.eflags = u.eflags
  memory : ∀ b, b < u.reg .esp - 8 ∨ u.reg .esp ≤ b → c.mem b = u.mem b

theorem AtInt.fits (h : AtInt command args u c) (hu : StubEntered t user tmpRes u)
    (hcommand : command < 4294967296) : c.Fits where
  reg q := by
    have hsp := hu.fits.reg .esp
    by_cases h₁ : q = .eax
    · rwa [h₁, h.eax]
    by_cases h₂ : q = .ebp
    · rw [h₂, h.ebp]
      omega
    by_cases h₃ : q = .esp
    · have := h.esp
      rw [h₃]
      omega
    rw [h.reg q h₁ h₂ h₃]
    exact hu.fits.reg q
  sreg s := by
    rw [h.sreg]
    exact hu.fits.sreg s
  eflags := by
    rw [h.eflags]
    exact hu.fits.eflags

/-- What is on the stack at the `int`. -/
def stubWords (args : ℕ) (u : Cpu) : List ℕ :=
  if args = 0 then [u.reg .ebp] else [read32 u.mem (u.reg .esp + 4), u.reg .ebp]

section

variable {setup clean : List Op} {m : Memory} {known : Reg → Option ℕ} {flags : Option ℕ}

theorem StubShape.setup_after (h : StubShape setup clean command args)
    (hu : StubEntered t user tmpRes u) :
    Trap.After alu u (.straight (.push .ebp) :: .straight (.mov .ebp .esp) :: setup) fun c =>
      Window (u.reg .esp - 8) (u.reg .esp) u.mem (stubWords args u)
        (Function.update (Function.update (Window.knows u.reg) .ebp (some (u.reg .esp - 4)))
          .eax (some command)) (some u.eflags) c := by
  have hbelow := hu.below
  have habove := hu.above
  have h₀ : Window (u.reg .esp - 8) (u.reg .esp) u.mem [] (Window.knows u.reg) (some u.eflags) u :=
    ⟨rfl, by simp, fun _ _ => rfl, fun r v _ hv => Option.some.inj hv,
      fun v hv => Option.some.inj hv⟩
  refine Window.straight (h₀.pushReg (by omega) (by simp; omega) (by decide) rfl
    (hu.fits.reg .ebp) fun c h₁ => ?_)
  refine Window.straight (h₁.mov_esp (by decide) fun c h₂ => ?_)
  have harg : u.reg .esp - 4 * [u.reg .ebp].length + 8 = u.reg .esp + 4 := by
    simp only [List.length_singleton]
    omega
  cases h with
  | plain => exact h₂.movImm (by decide) fun c h => h
  | argument =>
    refine h₂.movImm (by decide) fun c h₃ => Window.straight ?_
    refine h₃.pushMem (b := u.reg .esp - 4 * [u.reg .ebp].length) (by omega) (by simp; omega)
      (by decide) rfl (by omega) (by omega) fun c h₄ => ?_
    rw [harg] at h₄
    exact h₄
  | print =>
    refine Window.straight (h₂.pushMem (b := u.reg .esp - 4 * [u.reg .ebp].length) (by omega)
      (by simp; omega) (by decide) rfl (by omega) (by omega) fun c h₃ => ?_)
    rw [harg] at h₃
    exact h₃.movImm (by decide) fun c h => h

/-- No segment register is loaded. -/
theorem StubShape.no_segment (h : StubShape setup clean command args) :
    (∀ o ∈ Op.straight (.push .ebp) :: Op.straight (.mov .ebp .esp) :: setup,
      ∀ s, o ≠ .straight (.movSeg s)) ∧
    ∀ o ∈ clean ++ [Op.straight (.pop .ebp)], ∀ s, o ≠ .straight (.movSeg s) := by
  cases h <;> simp

/-- What follows the `int`. -/
theorem StubShape.behind_int (h : StubShape setup clean command args) :
    (systemStub setup clean)[setup.length + 2]? = some (.int 0x80) ∧
      (clean ++ [Op.straight (.pop .ebp)]).map .op <+:
        (systemStub setup clean).drop (setup.length + 3) ∧
      (systemStub setup clean)[setup.length + 3 + (clean ++ [Op.straight (.pop .ebp)]).length]? =
        some .ret := by
  cases h <;> exact ⟨rfl, ⟨[.ret], rfl⟩, rfl⟩

/-- The function comes to its `int`. -/
theorem StubShape.at_int (h : StubShape setup clean command args)
    (hu : StubEntered t user tmpRes u) (hcode : Trap.Loaded code user (systemStub setup clean)) :
    ∃ c, Trap.Runs alu t code u c ∧ c.eip = user (setup.length + 2) ∧ AtInt command args u c := by
  have hbelow := hu.below
  have hsetup : Trap.After alu u _ _ := (h.setup_after hu).sreg h.no_segment.1
  obtain ⟨c, hruns, hw, hsreg⟩ := hsetup.runs (t := t) hcode (n := 0)
    ⟨_, by rw [systemStub, List.append_assoc, List.append_assoc]; rfl⟩ hu.eip
  have hlen : (stubWords args u).length = args + 1 := by cases h <;> rfl
  have hesp := hw.esp
  rw [hlen] at hesp
  rw [List.length_cons, List.length_cons, Nat.zero_add] at hruns
  refine ⟨_, hruns, rfl, hw.reg .eax _ (by decide) rfl, hw.reg .ebp _ (by decide) rfl, hesp,
    fun q h₁ h₂ h₃ => hw.reg q _ h₃ ?_, fun ha => ?_, ?_, hsreg, hw.eflags _ rfl, hw.frame⟩
  · rw [Function.update_of_ne h₁, Function.update_of_ne h₂]
    rfl
  · subst ha
    exact hw.word 0 _ rfl
  · have hword : (stubWords args u)[args]? = some (u.reg .ebp) := by cases h <;> rfl
    rw [← hw.word args _ hword]
    show read32 c.mem _ = read32 c.mem _
    congr 1
    omega

theorem StubShape.clean_after (h : StubShape setup clean command args) {lo hi w : ℕ}
    {ws : List ℕ} (hws : ws.length = args) (hw : Window lo hi m (ws ++ [w]) known flags c)
    (hhi : hi < 4294967296) :
    Trap.After alu c (clean ++ [.straight (.pop .ebp)]) fun c' =>
      Window lo hi m [] (Function.update known .ebp (some w)) none c' := by
  have hforget : ∀ {c : Cpu} {known : Reg → Option ℕ} {flags : Option ℕ},
      Window lo hi m [] known flags c → Window lo hi m [] known none c :=
    fun h => ⟨h.esp, h.word, h.frame, h.reg, by simp⟩
  cases h with
  | plain =>
    obtain rfl := List.eq_nil_of_length_eq_zero hws
    exact Window.straight (hw.pop hhi (by decide) fun c h => hforget h)
  | _ =>
    obtain ⟨w', rfl⟩ := List.length_eq_one_iff.mp hws
    refine Window.straight (hw.add_esp hhi fun c h => Window.straight ?_)
    exact h.pop hhi (by decide) fun c h => h

/-- The function, called in `u`, has returned in `c` with the result `v`. -/
structure CallReturned (u : Cpu) (v : ℕ) (c : Cpu) : Prop where
  eip : c.eip = read32 u.mem (u.reg .esp)
  esp : c.reg .esp = u.reg .esp + 4
  eax : c.reg .eax = v
  reg : ∀ q, q ≠ .eax → q ≠ .esp → c.reg q = u.reg q
  cs : c.sreg .cs = u.sreg .cs
  ss : c.sreg .ss = u.sreg .ss

/-- With the result in `eax` the function returns to its caller. -/
theorem StubShape.finishes (h : StubShape setup clean command args)
    (hu : StubEntered t user tmpRes u) (hcode : Trap.Loaded code user (systemStub setup clean))
    (hc : AtInt command args u c) (hr : ResumedWith c (user (setup.length + 3)) v c')
    (hmem : ∀ b, u.reg .esp - 4 ≤ b → b < u.reg .esp + 4 → c'.mem b = c.mem b) :
    ∃ e, Trap.Runs alu t code c' e ∧ CallReturned u v e ∧
      ∀ b, b < u.reg .esp - 8 ∨ u.reg .esp ≤ b → e.mem b = c'.mem b := by
  have hbelow := hu.below
  have habove := hu.above
  have hesp : c'.reg .esp + 4 * (args + 1) = u.reg .esp := by
    rw [hr.reg .esp (by decide)]
    exact hc.esp
  have hargs : args = 0 ∨ args = 1 := by cases h <;> simp
  -- the saved `ebp` is still there, under what was passed
  have hsaved : read32 c'.mem (u.reg .esp - 4) = u.reg .ebp :=
    (read32_congr fun b hb hb' => hmem b hb (by omega)).trans hc.saved
  have hw : Window (u.reg .esp - 8) (u.reg .esp) c'.mem
      ((if args = 0 then [] else [read32 c'.mem (c'.reg .esp)]) ++ [u.reg .ebp])
      (Function.update (Window.knows c.reg) .eax (some v)) none c' := by
    refine ⟨?_, fun i w hi => ?_, fun _ _ => rfl, fun q w hq hw => ?_, by simp⟩
    · rcases hargs with rfl | rfl <;> simp <;> omega
    · rcases hargs with rfl | rfl
      · obtain ⟨rfl, rfl⟩ : i = 0 ∧ u.reg .ebp = w := by simpa [List.getElem?_singleton] using hi
        rw [← hsaved]
        congr 1
        omega
      · rcases i with _ | _ | i
        · simpa using hi
        · obtain rfl : u.reg .ebp = w := by simpa using hi
          rw [← hsaved]
          congr 1
          omega
        · simp at hi
    · by_cases hq' : q = .eax
      · subst hq'
        rw [Function.update_self] at hw
        exact hr.eax.trans (Option.some.inj hw)
      · rw [Function.update_of_ne hq'] at hw
        exact (hr.reg q hq').trans (Option.some.inj hw)
  have hws : (if args = 0 then [] else [read32 c'.mem (c'.reg .esp)]).length = args := by
    rcases hargs with rfl | rfl <;> rfl
  obtain ⟨-, hclean, hret⟩ := h.behind_int
  have hafter : Trap.After alu c' _ _ := (h.clean_after hws hw (by omega)).sreg h.no_segment.2
  obtain ⟨c₁, hruns, hw₁, hsreg⟩ := hafter.runs (t := t) hcode hclean hr.eip
  have hesp₁ : c₁.reg .esp = u.reg .esp := hw₁.esp
  have hlast : Trap.Runs alu t code _ _ := .single (hcode _ _ hret)
    (show Trap.Instr.exec alu t (c₁.goto _) _ .ret = _ from rfl)
  refine ⟨_, hruns.trans hlast, ⟨?_, ?_, ?_, fun q h₁ h₂ => ?_, ?_, ?_⟩, hw₁.frame⟩
  · show read32 c₁.mem (c₁.reg .esp) = read32 u.mem (u.reg .esp)
    rw [hesp₁]
    refine read32_congr fun b hb hb' => ?_
    rw [hw₁.frame b (.inr hb), hmem b (by omega) hb', hc.memory b (.inr hb)]
  · rw [Cpu.goto_reg, Cpu.drop_esp, Cpu.goto_reg, hesp₁, Nat.mod_eq_of_lt (by omega)]
  · rw [Cpu.goto_reg, Cpu.drop_reg _ _ (by decide)]
    exact hw₁.reg .eax v (by decide) rfl
  · rw [Cpu.goto_reg, Cpu.drop_reg _ _ h₂]
    by_cases hq : q = .ebp
    · subst hq
      exact hw₁.reg .ebp _ (by decide) (Function.update_self ..)
    · rw [← hc.reg q h₁ hq h₂]
      refine hw₁.reg q _ h₂ ?_
      rw [Function.update_of_ne hq, Function.update_of_ne h₁]
      rfl
  · show c₁.sreg .cs = _
    rw [hsreg, hr.sreg.1, hc.sreg]
  · show c₁.sreg .ss = _
    rw [hsreg, hr.sreg.2, hc.sreg]

end

/-! ## The whole way -/

/-- The address behind the `int` of a function. -/
def intReturn (user : ℕ → ℕ) (args : ℕ) : ℕ := user (args + 4)

/-- A program that calls a function of the library comes to `isr80h_handler`, with the command of
the function and a frame whose stack pointer leads to the argument. When that returns `v`, and
the frame and the program's return address are as they were, the function returns `v` to its
caller as any C function does. -/
theorem systemCall_returns {m : Memory} {base : ℕ} {table : ℕ → UInt32}
    {zero wrapper idtr : UInt32} {s : Idt} (h : (is, command, args) ∈ systemStubs)
    (hm : HoldsIdt m base (idtInit table zero wrapper idtr s))
    (huser : Trap.Loaded code user is) (haddr : intReturn user args < 4294967296)
    (hkern : Trap.Loaded code kern (isr80hWrapper handler tmpRes))
    (hwrapper : kern 0 = wrapper.toNat) (hra : kern 4 < 4294967296)
    (hu : StubEntered (kernelTables m base) user tmpRes u) :
    ∃ uc c, Trap.Runs alu (kernelTables m base) code u c ∧ AtInt command args u uc ∧
      AtHandler (kernelTables m base) uc (intReturn user args) command (kern 4) handler c ∧
      ∀ c', Returned (kernelTables m base) c c' → c'.reg .eax < 4294967296 →
        (∀ b, u.reg .esp - 4 ≤ b → b < u.reg .esp + 4 → c'.mem b = c.mem b) →
        ∃ e, Trap.Runs alu (kernelTables m base) code c' e ∧ CallReturned u (c'.reg .eax) e := by
  obtain ⟨hcommand, setup, clean, rfl, hshape⟩ := stubShape_of_mem h
  have hlen : setup.length = args + 1 := by cases hshape <;> rfl
  obtain ⟨uc, hruns, heip, hint⟩ : ∃ uc, Trap.Runs alu _ code u uc ∧ _ := hshape.at_int hu huser
  have hring : uc.sreg .cs % 4 ≠ 0 := by
    rw [hint.sreg]
    exact hu.ring
  have hinterruptible : Interruptible (kernelTables m base) uc (intReturn user args) :=
    ⟨hring, hint.fits hu (by omega), haddr, hu.room, hu.top⟩
  have hn : 0x80 < totalInterrupts := by decide
  have hgate : ((kernelTables m base).gate 0x80).offset = kern 0 := by
    rw [idtInit_gate hm hn, hwrapper, vectorAddress, if_pos rfl]
  have htrap : Trap.Runs alu (kernelTables m base) code uc
      (uc.trap (kernelTables m base) 0x80 (intReturn user args)) := by
    have hfetch : code uc.eip = some (.int 0x80, user (setup.length + 3)) := by
      rw [heip]
      exact huser _ _ hshape.behind_int.1
    refine .single hfetch ?_
    · rw [hlen]
      refine if_pos ?_
      rw [idtInit_dpl hm hn]
      omega
  obtain ⟨c, hruns', hc⟩ : ∃ c, Trap.Runs alu (kernelTables m base) code _ c ∧ _ :=
    isr80hWrapper_enters hinterruptible hkern hgate hra
  rw [hint.eax] at hc
  refine ⟨uc, c, hruns.trans (htrap.trans hruns'), hint, hc, fun c' hret hv hkept => ?_⟩
  obtain ⟨r, hruns₁, hr, hmem⟩ : ∃ r, Trap.Runs alu (kernelTables m base) code c' r ∧ _ :=
    isr80hWrapper_answers hinterruptible hkern hc hret rfl hv hu.result
  have heip' : ResumedWith uc (user (setup.length + 3)) (c'.reg .eax) r := by
    rw [hlen]
    exact hr
  have hstack : ∀ b, u.reg .esp - 4 ≤ b → b < u.reg .esp + 4 → r.mem b = uc.mem b := by
    intro b hb hb'
    have hb0 := hu.below
    have hapart := hu.apart
    have hresult := hu.result_apart
    have htop : (kernelTables m base).esp0 = 0x600000 := rfl
    rw [hmem b (by omega), write32_of_apart _ (by omega), hkept b hb hb', hc.memory b (by omega)]
  obtain ⟨e, hruns₂, he, -⟩ : ∃ e, Trap.Runs alu _ code r e ∧ _ :=
    hshape.finishes hu huser hint heip' hstack
  exact ⟨e, hruns₁.trans hruns₂, he⟩

/-! ## A call of `hardikhyperionos_malloc` -/

/-- The function is at 0x400010 and the wrapper at 0x105100. -/
def mallocCode : Trap.Code :=
  (layout 0x400010 Asm.hardikhyperionosMalloc).above
    (layout 0x105100 (isr80hWrapper 0x108000 0x109000)) 0x400000

theorem userCpu_entered (m : Memory) (base : ℕ) :
    StubEntered (kernelTables m base) (fun i => 0x400010 + 4 * i) 0x109000 userCpu where
  ring := by decide
  fits := (userCpu_interruptible m base).fits
  eip := rfl
  below := by decide
  above := by decide
  room := show 64 ≤ 0x600000 by decide
  top := show 0x600000 < 4294967296 by decide
  apart := .inl (show 0x3fefe0 + 8 ≤ 0x600000 - 64 by decide)
  result := .inl (show 0x109000 + 4 ≤ 0x600000 - 64 by decide)
  result_apart := .inl (by decide)

theorem systemCall_returns_malloc : ∃ uc c, AtInt 4 1 userCpu uc ∧
    AtHandler (kernelTables (idtMemory 0x106000 stubIdt) 0x106000) uc 0x400024 4 0x105110 0x108000
      c := by
  have huser : Trap.Loaded mallocCode (fun i => 0x400010 + 4 * i) Asm.hardikhyperionosMalloc :=
    (layout_loaded _ _).above fun n => by omega
  have hkern : Trap.Loaded mallocCode (fun i => 0x105100 + 4 * i)
      (isr80hWrapper 0x108000 0x109000) :=
    (layout_loaded _ _).below fun n hn => show 0x105100 + 4 * n < 0x400000 by
      have : n < 9 := hn
      omega
  obtain ⟨uc, c, -, hint, hc, -⟩ : ∃ uc c, Trap.Runs (fun f _ => f) _ mallocCode userCpu c ∧ _ :=
    systemCall_returns (show (Asm.hardikhyperionosMalloc, 4, 1) ∈ systemStubs by simp [systemStubs])
      (idtMemory_holds 0x106000 stubIdt) huser (by decide) hkern (by decide) (by decide)
      (userCpu_entered _ _)
  exact ⟨uc, c, hint, hc⟩

end Hyperion
