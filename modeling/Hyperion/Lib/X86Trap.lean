import Hyperion.Lib.X86

/-!
# Traps of the x86 machine

An interrupt descriptor table, the way the processor goes through a gate of it, and the
instructions that interrupt routines need besides those of `X86` : `pushad` and `popad`, moves
of constants and of words at fixed addresses, `int` and `div`. The windows of `X86` follow a
routine over its stack frame, with one rule more for each of these.
-/

namespace X86

/-! ## Gates -/

/-- A gate of the interrupt descriptor table. -/
structure Gate where
  offset : ℕ
  selector : ℕ
  access : UInt8
  deriving DecidableEq

/-- The least privilege from which `int` may use the gate. -/
def Gate.dpl (g : Gate) : ℕ := g.access.toNat / 32 % 4

/-- The gate is a present one of 32 bits that turns the interrupts off. -/
def Gate.Interrupts (g : Gate) : Prop := g.access.toNat % 32 = 14 ∧ 128 ≤ g.access.toNat

/-- The gate in the eight bytes at `a`. -/
def gateAt (m : Memory) (a : ℕ) : Gate where
  offset := read16 m a + read16 m (a + 6) * 65536
  selector := read16 m (a + 2)
  access := m (a + 5)

/-- What the processor needs to take an interrupt : the gates, and the stack of ring 0. -/
structure Tables where
  gate : ℕ → Gate
  esp0 : ℕ
  ss0 : ℕ

/-- The flags behind an interrupt gate : VM, RF, NT, IF and TF are cleared. -/
def gateFlags (eflags : ℕ) : ℕ := eflags &&& 0xfffcbcff

/-- The exceptions that push an error code on top of the frame. -/
def errorCodeVectors : List ℕ := [8, 10, 11, 12, 13, 14, 17, 21, 29, 30]

namespace Cpu

variable (t : Tables) (c : Cpu)

/-- The stack that the frame goes on. From another ring it is that of ring 0, and the old one is
pushed first. -/
def trapStack : Cpu :=
  if c.sreg .cs % 4 = 0 then c
  else (((c.set .esp t.esp0).setSeg .ss t.ss0).push (c.sreg .ss)).push (c.reg .esp)

/-- The frame is on the stack. -/
def trapPushed (ip : ℕ) : Cpu := (((c.trapStack t).push c.eflags).push (c.sreg .cs)).push ip

/-- The processor goes through the gate of the vector `n` to ring 0, to come back to `ip`. No error
code is pushed : this is how `int n` traps for every vector, and how a device or an exception does
unless the vector is one of `errorCodeVectors`. -/
def trap (n ip : ℕ) : Cpu :=
  (((c.trapPushed t ip).setSeg .cs (t.gate n).selector).setFlags (gateFlags c.eflags)).goto
    (t.gate n).offset

variable {t c}

theorem setSeg_mem (s : SReg) (v : ℕ) : (c.setSeg s v).mem = c.mem := rfl

theorem setFlags_mem (v : ℕ) : (c.setFlags v).mem = c.mem := rfl

theorem trap_eq_reg {n ip : ℕ} : (c.trap t n ip).reg = (c.trapPushed t ip).reg := rfl

theorem trap_eq_mem {n ip : ℕ} : (c.trap t n ip).mem = (c.trapPushed t ip).mem := by
  rw [trap, goto_mem, setFlags_mem, setSeg_mem]

theorem push_top {v : ℕ} (hv : v < 4294967296) : (c.push v).top = v := by
  rw [top, push_mem, push_esp, read32_write32_self _ _ hv]

theorem trap_reg {n ip : ℕ} {r : Reg} (hr : r ≠ .esp) : (c.trap t n ip).reg r = c.reg r := by
  rw [trap_eq_reg, trapPushed, push_reg _ _ hr, push_reg _ _ hr, push_reg _ _ hr, trapStack]
  split_ifs
  · rfl
  · rw [push_reg _ _ hr, push_reg _ _ hr]
    exact if_neg hr

/-- The instruction pointer is on top. -/
theorem trap_top {n ip : ℕ} (hip : ip < 4294967296) : (c.trap t n ip).top = ip := by
  rw [top, trap_eq_reg, trap_eq_mem]
  exact push_top hip

/-- Within ring 0 three words are pushed. -/
theorem trap_esp {n ip : ℕ} (h : c.sreg .cs % 4 = 0) :
    (c.trap t n ip).reg .esp = (c.reg .esp + 4294967284) % 4294967296 := by
  rw [trap_eq_reg, trapPushed, push_esp, push_esp, push_esp, trapStack, if_pos h]
  omega

/-- From another ring there are five, on the stack of ring 0. -/
theorem trap_esp_user {n ip : ℕ} (h : c.sreg .cs % 4 ≠ 0) :
    (c.trap t n ip).reg .esp = (t.esp0 + 4294967276) % 4294967296 := by
  have h0 : ((c.set .esp t.esp0).setSeg .ss t.ss0).reg .esp = t.esp0 := rfl
  rw [trap_eq_reg, trapPushed, push_esp, push_esp, push_esp, trapStack, if_neg h, push_esp,
    push_esp, h0]
  omega

variable (t c)

/-- `pop r` -/
def pop (r : Reg) : Cpu := (c.drop 4).set r c.top

/-- `pushad`. The stack pointer that is pushed is the one before the first push. -/
def pushad : Cpu :=
  (((((((c.push (c.reg .eax)).push (c.reg .ecx)).push (c.reg .edx)).push (c.reg .ebx)).push
    (c.reg .esp)).push (c.reg .ebp)).push (c.reg .esi)).push (c.reg .edi)

/-- `popad`. The stack pointer that was pushed is dropped. -/
def popad : Cpu :=
  (((((((c.pop .edi).pop .esi).pop .ebp).drop 4).pop .ebx).pop .edx).pop .ecx).pop .eax

theorem goto_goto (a b : ℕ) : (c.goto b).goto a = c.goto a := rfl

theorem push_goto (v a : ℕ) : (c.goto a).push v = (c.push v).goto a := by
  simp only [push, set, goto]

theorem drop_goto (n a : ℕ) : (c.goto a).drop n = (c.drop n).goto a := by
  simp only [drop, set, goto]

theorem pop_goto (r : Reg) (a : ℕ) : (c.goto a).pop r = (c.pop r).goto a := by
  simp only [pop, drop, top, set, goto]

theorem pushad_goto (a : ℕ) : (c.goto a).pushad = c.pushad.goto a := by
  simp only [pushad, push_goto, goto_reg]

theorem popad_goto (a : ℕ) : (c.goto a).popad = c.popad.goto a := by
  simp only [popad, pop_goto, drop_goto]

/-- All registers are words, and the segment registers are 16 bits. -/
structure Fits : Prop where
  reg : ∀ r, c.reg r < 4294967296
  sreg : ∀ s, c.sreg s < 65536
  eflags : c.eflags < 4294967296

end Cpu

/-! ## Instructions -/

namespace Trap

/-- Instructions that go on to the next one. -/
inductive Op
  | straight (i : Straight)
  /-- `mov r, imm` -/
  | movImm (r : Reg) (imm : ℕ)
  /-- `push imm` -/
  | pushImm (imm : ℕ)
  | pushad
  | popad
  /-- `mov r, [a]` -/
  | loadAbs (r : Reg) (a : ℕ)
  /-- `mov [a], r` -/
  | storeAbs (a : ℕ) (r : Reg)

inductive Instr
  | op (o : Op)
  | call (target : ℕ)
  | ret
  | iretd
  /-- `int n` -/
  | int (n : ℕ)
  /-- `div r` -/
  | div (r : Reg)

variable (alu : AluFlags) (t : Tables)

/-- The effect of an instruction that goes on, the instruction pointer apart. -/
def Op.exec (c : Cpu) : Op → Cpu
  | straight i => i.exec alu c
  | movImm r imm => c.set r imm
  | pushImm imm => c.push imm
  | pushad => c.pushad
  | popad => c.popad
  | loadAbs r a => c.set r (read32 c.mem a)
  | storeAbs a r => { c with mem := write32 c.mem a (c.reg r) }

/-- The dividend of `div`, in two registers. -/
def dividend (c : Cpu) : ℕ := c.reg .edx * 4294967296 + c.reg .eax

/-- `div r` at `c.eip`. A divisor of 0 and a quotient that is too long are divide errors : the
processor comes back to the division itself. -/
def div (c : Cpu) (next : ℕ) (r : Reg) : Cpu :=
  let n := dividend c
  if c.reg r = 0 ∨ 4294967296 ≤ n / c.reg r then c.trap t 0 c.eip
  else (((c.set .eax (n / c.reg r)).set .edx (n % c.reg r)).setFlags (alu c.eflags n)).goto next

/-- The effect of an instruction that is followed by the one at `next`, if it is allowed. -/
def Instr.exec (c : Cpu) (next : ℕ) : Instr → Option Cpu
  | op o => some ((o.exec alu c).goto next)
  | call target => some ((c.push next).goto target)
  | ret => some ((c.drop 4).goto c.top)
  | iretd => some (X86.iretd c)
  | int n => if c.sreg .cs % 4 ≤ (t.gate n).dpl then some (c.trap t n next) else none
  | div r => some (Trap.div alu t c next r)

/-- The instruction at an address and the address of the one that follows it. -/
abbrev Code := ℕ → Option (Instr × ℕ)

/-- `is` stands in `code` from `addrs 0` on. -/
def Loaded (code : Code) (addrs : ℕ → ℕ) (is : List Instr) : Prop :=
  ∀ n i, is[n]? = some i → code (addrs n) = some (i, addrs (n + 1))

/-- Some number of steps leads from the first state to the second. -/
inductive Runs (code : Code) : Cpu → Cpu → Prop
  | refl (c : Cpu) : Runs code c c
  | step {c c₁ c' : Cpu} {i : Instr} {next : ℕ} : code c.eip = some (i, next) →
      i.exec alu t c next = some c₁ → Runs code c₁ c' → Runs code c c'

variable {alu t} {code : Code} {addrs : ℕ → ℕ} {c c' c'' : Cpu}

theorem Runs.trans (h : Runs alu t code c c') (h' : Runs alu t code c' c'') :
    Runs alu t code c c'' := by
  induction h with
  | refl c => exact h'
  | step hi he _ ih => exact .step hi he (ih h')

theorem Runs.single {i : Instr} {next : ℕ} (hi : code c.eip = some (i, next))
    (he : i.exec alu t c next = some c') : Runs alu t code c c' :=
  .step hi he (.refl _)

/-- The instructions `is` from `base` on, four bytes each. -/
def layout (base : ℕ) (is : List Instr) : Code := fun a =>
  if base ≤ a ∧ (a - base) % 4 = 0 then is[(a - base) / 4]?.map fun i => (i, a + 4) else none

theorem layout_loaded (base : ℕ) (is : List Instr) :
    Loaded (layout base is) (fun i => base + 4 * i) is := by
  intro n i hi
  show layout base is (base + 4 * n) = some (i, base + 4 * (n + 1))
  rw [layout, if_pos (by omega), show (base + 4 * n - base) / 4 = n by omega, hi]
  rfl

/-- Code above other code. -/
def Code.above (code code' : Code) (base : ℕ) : Code := fun a =>
  if a < base then code' a else code a

theorem Loaded.above {code' : Code} {is : List Instr} {base : ℕ} (h : Loaded code addrs is)
    (hbase : ∀ n, base ≤ addrs n) : Loaded (code.above code' base) addrs is := fun n i hi =>
  (if_neg (Nat.not_lt.mpr (hbase n))).trans (h n i hi)

theorem Loaded.below {code' : Code} {is : List Instr} {base : ℕ} (h : Loaded code' addrs is)
    (hbase : ∀ n < is.length, addrs n < base) : Loaded (code.above code' base) addrs is :=
  fun n i hi => (if_pos (hbase n (List.getElem?_eq_some_iff.mp hi).1)).trans (h n i hi)

/-! ## Straight-line code -/

/-- Straight-line code, one instruction after the other. -/
def execAll (alu : AluFlags) (c : Cpu) (os : List Op) : Cpu :=
  os.foldl (fun c o => o.exec alu c) c

theorem Op.exec_pushad (c : Cpu) : Op.exec alu c .pushad = c.pushad := rfl

theorem Op.exec_popad (c : Cpu) : Op.exec alu c .popad = c.popad := rfl

/-- No effect depends on the instruction pointer. -/
theorem Op.exec_goto (c : Cpu) (a b : ℕ) (o : Op) :
    (o.exec alu c).goto a = (o.exec alu (c.goto b)).goto a := by
  cases o with
  | straight i => exact Straight.exec_goto c a b i
  | pushad => rw [Op.exec_pushad, Op.exec_pushad, Cpu.pushad_goto, Cpu.goto_goto]
  | popad => rw [Op.exec_popad, Op.exec_popad, Cpu.popad_goto, Cpu.goto_goto]
  | _ => simp only [Op.exec, Cpu.set, Cpu.push, Cpu.goto]

theorem execAll_goto (c : Cpu) (a b : ℕ) : ∀ os : List Op,
    (execAll alu c os).goto a = (execAll alu (c.goto b) os).goto a := by
  intro os
  induction os generalizing c b with
  | nil => rfl
  | cons o os ih =>
    simp only [execAll, List.foldl_cons] at ih ⊢
    rw [ih (o.exec alu c) b, Op.exec_goto c b b o, ih (o.exec alu (c.goto b)) b]

/-- A block of straight-line code runs to the instruction after it. -/
theorem exec_block {is : List Instr} {block : List Op} {n : ℕ} (h : Loaded code addrs is)
    (hblock : block.map .op <+: is.drop n) {c : Cpu} (hc : c.eip = addrs n) :
    Runs alu t code c ((execAll alu c block).goto (addrs (n + block.length))) := by
  induction block generalizing n c with
  | nil =>
    have : c = c.goto (addrs n) := by rw [← hc]; rfl
    rw [execAll, List.foldl_nil, List.length_nil, Nat.add_zero, ← this]
    exact .refl c
  | cons o block ih =>
    obtain ⟨rest, hrest⟩ := hblock
    have hi : is[n]? = some (.op o) := by
      have := congrArg (·[0]?) hrest
      simpa [List.getElem?_drop] using this.symm
    have htail : block.map .op <+: is.drop (n + 1) := by
      refine ⟨rest, ?_⟩
      have := congrArg List.tail hrest
      simpa [List.tail_drop] using this
    refine .step (by rw [hc]; exact h n _ hi) rfl ?_
    have := ih htail (c := (o.exec alu c).goto (addrs (n + 1))) rfl
    rw [← execAll_goto] at this
    rw [List.length_cons, show n + (block.length + 1) = n + 1 + block.length by omega]
    exact this

/-- `Q` holds after the straight-line code `os`. -/
def After (alu : AluFlags) (c : Cpu) (os : List Op) (Q : Cpu → Prop) : Prop :=
  Q (execAll alu c os)

/-- A block after which `Q` holds runs to a state with `Q`. -/
theorem After.runs {is : List Instr} {block : List Op} {n : ℕ} {Q : Cpu → Prop}
    (hQ : After alu c block Q) (h : Loaded code addrs is)
    (hblock : block.map .op <+: is.drop n) (hc : c.eip = addrs n) :
    ∃ c', Runs alu t code c (c'.goto (addrs (n + block.length))) ∧ Q c' :=
  ⟨_, exec_block h hblock hc, hQ⟩

/-- All but a move to a segment register leave these alone. -/
theorem Op.exec_sreg {o : Op} (h : ∀ s, o ≠ .straight (.movSeg s)) :
    (o.exec alu c).sreg = c.sreg := by
  cases o with
  | straight i =>
    cases i with
    | movSeg s => exact absurd rfl (h s)
    | _ => rfl
  | _ => rfl

theorem execAll_sreg : ∀ {os : List Op} {c : Cpu}, (∀ o ∈ os, ∀ s, o ≠ .straight (.movSeg s)) →
    (execAll alu c os).sreg = c.sreg
  | [], _, _ => rfl
  | o :: os, c, h => by
    rw [execAll, List.foldl_cons]
    exact (execAll_sreg fun o ho => h o (List.mem_cons_of_mem _ ho)).trans
      (Op.exec_sreg (h o List.mem_cons_self))

theorem After.sreg {os : List Op} {Q : Cpu → Prop} (hQ : After alu c os Q)
    (h : ∀ o ∈ os, ∀ s, o ≠ .straight (.movSeg s)) :
    After alu c os fun c' => Q c' ∧ c'.sreg = c.sreg :=
  ⟨hQ, execAll_sreg h⟩

end Trap

/-! ## Windows -/

namespace Window

open Trap

variable {lo hi : ℕ} {m₀ : Memory} {ws : List ℕ} {known : Reg → Option ℕ} {flags : Option ℕ}
  {c : Cpu} {d : Reg} {v w imm : ℕ} {alu : AluFlags} {os : List Op} {Q : Cpu → Prop}

/-- The rules of `X86` hold here too. -/
theorem straight {i : Straight} (h : After alu c [i] fun c' => Trap.After alu c' os Q) :
    Trap.After alu c (.straight i :: os) Q := h

theorem movImm (h : Window lo hi m₀ ws known flags c) (hd : d ≠ .esp)
    (hQ : ∀ c', Window lo hi m₀ ws (Function.update known d (some imm)) flags c' →
      Trap.After alu c' os Q) : Trap.After alu c (.movImm d imm :: os) Q :=
  hQ _ (h.set hd fun _ hw => Option.some.inj hw)

theorem pushImm (h : Window lo hi m₀ ws known flags c) (hhi : hi ≤ 4294967296)
    (hroom : lo + 4 * (ws.length + 1) ≤ hi) (himm : imm < 4294967296)
    (hQ : ∀ c', Window lo hi m₀ (imm :: ws) known flags c' → Trap.After alu c' os Q) :
    Trap.After alu c (.pushImm imm :: os) Q :=
  hQ _ (h.push hhi hroom himm)

/-- The stack pointer itself is pushed. -/
theorem pushEsp (h : Window lo hi m₀ ws known flags c) (hhi : hi < 4294967296)
    (hroom : lo + 4 * (ws.length + 1) ≤ hi)
    (hQ : ∀ c', Window lo hi m₀ ((hi - 4 * ws.length) :: ws) known flags c' →
      Trap.After alu c' os Q) : Trap.After alu c (.straight (.push .esp) :: os) Q := by
  refine hQ _ ?_
  have hesp := h.esp
  have : c.reg .esp = hi - 4 * ws.length := by omega
  rw [← this]
  exact h.push (by omega) hroom (by omega)

theorem popReg (h : Window lo hi m₀ (w :: ws) known flags c) (hhi : hi < 4294967296)
    (hd : d ≠ .esp) : Window lo hi m₀ ws (Function.update known d (some w)) flags (c.pop d) := by
  refine (h.drop hhi).set hd fun u hu => ?_
  rw [h.top]
  exact Option.some.inj hu

/-- The words that `pushad` leaves, from the last one on. -/
def savedRegisters (u : Reg → ℕ) (esp : ℕ) : List ℕ :=
  [u .edi, u .esi, u .ebp, esp, u .ebx, u .edx, u .ecx, u .eax]

/-- The known values of the registers in `u`. -/
def knows (u : Reg → ℕ) : Reg → Option ℕ := fun r => some (u r)

theorem pushad {u : Reg → ℕ} (h : Window lo hi m₀ ws (knows u) flags c) (hhi : hi < 4294967296)
    (hroom : lo + 4 * (ws.length + 8) ≤ hi) (hu : ∀ r, u r < 4294967296)
    (hQ : ∀ c', Window lo hi m₀ (savedRegisters u (hi - 4 * ws.length) ++ ws) (knows u) flags c' →
      Trap.After alu c' os Q) : Trap.After alu c (.pushad :: os) Q := by
  have hesp := h.esp
  have hreg : ∀ r, r ≠ .esp → c.reg r = u r := fun r hr => h.reg r (u r) hr rfl
  refine hQ _ ?_
  show Window lo hi m₀ _ _ _ c.pushad
  have hsp : c.reg .esp = hi - 4 * ws.length := by omega
  rw [Cpu.pushad, hreg .eax (by decide), hreg .ecx (by decide), hreg .edx (by decide),
    hreg .ebx (by decide), hsp, hreg .ebp (by decide), hreg .esi (by decide), hreg .edi (by decide)]
  have hle : hi ≤ 4294967296 := by omega
  have h₁ := h.push hle (by omega) (hu .eax)
  have h₂ := h₁.push hle (by simp only [List.length_cons]; omega) (hu .ecx)
  have h₃ := h₂.push hle (by simp only [List.length_cons]; omega) (hu .edx)
  have h₄ := h₃.push hle (by simp only [List.length_cons]; omega) (hu .ebx)
  have h₅ := h₄.push (v := hi - 4 * ws.length) hle (by simp only [List.length_cons]; omega)
    (by omega)
  have h₆ := h₅.push hle (by simp only [List.length_cons]; omega) (hu .ebp)
  have h₇ := h₆.push hle (by simp only [List.length_cons]; omega) (hu .esi)
  exact h₇.push hle (by simp only [List.length_cons]; omega) (hu .edi)

/-- `popad` gives the registers the values that were pushed. -/
theorem popad {u : Reg → ℕ} {e : ℕ}
    (h : Window lo hi m₀ (savedRegisters u e ++ ws) known flags c) (hhi : hi < 4294967296)
    (hQ : ∀ c', Window lo hi m₀ ws (knows u) flags c' → Trap.After alu c' os Q) :
    Trap.After alu c (.popad :: os) Q := by
  refine hQ _ ?_
  show Window lo hi m₀ _ _ _ c.popad
  have h₁ := ((h.popReg hhi (by decide : Reg.edi ≠ .esp)).popReg hhi
    (by decide : Reg.esi ≠ .esp)).popReg hhi (by decide : Reg.ebp ≠ .esp)
  have h₂ := (((h₁.drop hhi).popReg hhi (by decide : Reg.ebx ≠ .esp)).popReg hhi
    (by decide : Reg.edx ≠ .esp)).popReg hhi (by decide : Reg.ecx ≠ .esp)
  have h₃ := h₂.popReg hhi (by decide : Reg.eax ≠ .esp)
  refine ⟨h₃.esp, h₃.word, h₃.frame, fun r v hr hv => h₃.reg r v hr ?_, h₃.eflags⟩
  rw [← hv]
  cases r with
  | esp => exact absurd rfl hr
  | _ => rfl

/-- The words on top of the stack are skipped. -/
theorem dropAll {l : List ℕ} (h : Window lo hi m₀ (l ++ ws) known flags c)
    (hhi : hi < 4294967296) : Window lo hi m₀ ws known flags (c.drop (4 * l.length)) := by
  have hesp := h.esp
  rw [List.length_append] at hesp
  have hsp : (c.drop (4 * l.length)).reg .esp = c.reg .esp + 4 * l.length := by
    rw [Cpu.drop_esp, Nat.mod_eq_of_lt (by omega)]
  refine ⟨by rw [hsp]; omega, fun i u hi' => ?_, h.frame, fun r u hr hk => ?_, h.eflags⟩
  · have hword := h.word (l.length + i) u
      (by rw [List.getElem?_append_right (by omega), Nat.add_sub_cancel_left]; exact hi')
    rw [hsp, ← hword]
    show read32 c.mem _ = _
    congr 1
    omega
  · rw [Cpu.drop_reg _ _ hr, h.reg r u hr hk]

/-- Two words are skipped. -/
theorem add_esp_two {u₁ u₂ : ℕ} (h : Window lo hi m₀ (u₁ :: u₂ :: ws) known flags c)
    (hhi : hi < 4294967296)
    (hQ : ∀ c', Window lo hi m₀ ws known none c' → Trap.After alu c' os Q) :
    Trap.After alu c (.straight (.add .esp 8) :: os) Q :=
  hQ _ ((dropAll (l := [u₁, u₂]) h hhi).setFlags _)

/-- A word outside the frame is loaded. -/
theorem loadAbs {a : ℕ} (h : Window lo hi m₀ ws known flags c) (hd : d ≠ .esp)
    (ha : a + 4 ≤ lo ∨ hi ≤ a)
    (hQ : ∀ c', Window lo hi m₀ ws (Function.update known d (some (read32 m₀ a))) flags c' →
      Trap.After alu c' os Q) : Trap.After alu c (.loadAbs d a :: os) Q := by
  refine hQ _ (h.set hd fun w hw => ?_)
  rw [h.read_outside ha]
  exact Option.some.inj hw

/-- A word outside the frame is stored. -/
theorem storeAbs {a : ℕ} (h : Window lo hi m₀ ws known flags c) (hd : d ≠ .esp)
    (hk : known d = some v) (ha : a + 4 ≤ lo ∨ hi ≤ a)
    (hQ : ∀ c', Window lo hi (write32 m₀ a v) ws known flags c' → Trap.After alu c' os Q)
    (hws : lo + 4 * ws.length ≤ hi) : Trap.After alu c (.storeAbs a d :: os) Q := by
  have hesp := h.esp
  refine hQ _ ⟨h.esp, fun i w hi' => ?_, fun b hb => ?_, h.reg, h.eflags⟩
  · have hlen := (List.getElem?_eq_some_iff.mp hi').1
    refine (read32_write32_of_apart _ ?_).trans (h.word i w hi')
    show c.reg .esp + 4 * i + 4 ≤ a ∨ a + 4 ≤ c.reg .esp + 4 * i
    omega
  · show write32 c.mem a (c.reg d) b = _
    rw [h.reg d v hd hk, write32, write32, h.frame b hb]

/-! ### To ring 0 and back -/

section

variable {t : Tables} {n ip : ℕ}

theorem trap_sreg_cs : (c.trap t n ip).sreg .cs = (t.gate n).selector := rfl

theorem trap_eip : (c.trap t n ip).eip = (t.gate n).offset := rfl

/-- What the processor has pushed on the stack of ring 0. -/
theorem trap (huser : c.sreg .cs % 4 ≠ 0) (hc : c.Fits) (hip : ip < 4294967296)
    (hlo : lo + 20 ≤ t.esp0) (hhi : t.esp0 < 4294967296) :
    Window lo t.esp0 c.mem [ip, c.sreg .cs, c.eflags, c.reg .esp, c.sreg .ss] (knows c.reg)
      (some (gateFlags c.eflags)) (c.trap t n ip) := by
  have hle : t.esp0 ≤ 4294967296 := by omega
  have hcs := hc.sreg .cs
  have hss := hc.sreg .ss
  have h₀ : Window lo t.esp0 c.mem [] (knows c.reg) none ((c.set .esp t.esp0).setSeg .ss t.ss0) :=
    ⟨rfl, by simp, fun _ _ => rfl, fun r v hr hv => (if_neg hr).trans (Option.some.inj hv), by simp⟩
  have h₁ := h₀.push hle (by simp only [List.length_nil]; omega)
    (show c.sreg .ss < 4294967296 by omega)
  have h₂ := h₁.push hle (by simp only [List.length_cons, List.length_nil]; omega) (hc.reg .esp)
  have h₃ := h₂.push hle (by simp only [List.length_cons, List.length_nil]; omega) hc.eflags
  have h₄ := h₃.push hle (by simp only [List.length_cons, List.length_nil]; omega)
    (show c.sreg .cs < 4294967296 by omega)
  have h₅ := h₄.push hle (by simp only [List.length_cons, List.length_nil]; omega) hip
  have h₆ := ((h₅.setSeg .cs (t.gate n).selector).setFlags (gateFlags c.eflags)).goto
    (t.gate n).offset
  rw [Cpu.trap, Cpu.trapPushed, Cpu.trapStack, if_neg huser]
  exact ⟨h₆.esp, h₆.word, h₆.frame, h₆.reg, fun v hv => Option.some.inj hv⟩

end

end Window

/-- `c` is the interrupted `u`, back in its ring at `ip`. -/
structure Resumed (u : Cpu) (ip : ℕ) (c : Cpu) : Prop where
  reg : ∀ r, c.reg r = u.reg r
  cs : c.sreg .cs = u.sreg .cs
  ss : c.sreg .ss = u.sreg .ss
  eflags : c.eflags = u.eflags
  eip : c.eip = ip

/-- `iretd` pops what a trap has pushed. The registers are those that `c` has. -/
theorem Window.iretd {lo hi : ℕ} {m₀ : Memory} {known : Reg → Option ℕ} {flags : Option ℕ}
    {c : Cpu} {ip cs eflags esp ss : ℕ}
    (h : Window lo hi m₀ [ip, cs, eflags, esp, ss] known flags c) (hhi : hi < 4294967296)
    (hcs : cs % 4 ≠ 0) (hcs' : cs < 65536) (hss : ss < 65536) :
    (∀ r v, r ≠ .esp → known r = some v → (X86.iretd c).reg r = v) ∧
      (X86.iretd c).reg .esp = esp ∧ (X86.iretd c).sreg .cs = cs ∧ (X86.iretd c).sreg .ss = ss ∧
      (X86.iretd c).eflags = eflags ∧ (X86.iretd c).eip = ip ∧ (X86.iretd c).mem = c.mem := by
  have hesp : c.reg .esp + 20 = hi := h.esp
  have h0 : read32 c.mem (c.reg .esp) = ip := h.word 0 _ rfl
  have h4 : read32 c.mem ((c.reg .esp + 4) % 4294967296) = cs := by
    rw [Nat.mod_eq_of_lt (by omega)]
    exact h.word 1 _ rfl
  have h8 : read32 c.mem ((c.reg .esp + 8) % 4294967296) = eflags := by
    rw [Nat.mod_eq_of_lt (by omega)]
    exact h.word 2 _ rfl
  have h12 : read32 c.mem ((c.reg .esp + 12) % 4294967296) = esp := by
    rw [Nat.mod_eq_of_lt (by omega)]
    exact h.word 3 _ rfl
  have h16 : read32 c.mem ((c.reg .esp + 16) % 4294967296) = ss := by
    rw [Nat.mod_eq_of_lt (by omega)]
    exact h.word 4 _ rfl
  simp only [X86.iretd, h0, h4, h8, h12, h16, Nat.mod_eq_of_lt hcs', Nat.mod_eq_of_lt hss,
    if_neg hcs]
  refine ⟨fun r v hr hv => ?_, ?_, ?_, ?_, ?_, ?_, ?_⟩
  · have := h.reg r v hr hv
    simpa [Cpu.setSeg, Cpu.set, Cpu.setFlags, Cpu.goto, Cpu.drop, hr] using this
  all_goals simp [Cpu.setSeg, Cpu.set, Cpu.setFlags, Cpu.goto, Cpu.drop]

end X86
