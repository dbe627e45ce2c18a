import Mathlib.Algebra.Group.Nat.Defs
import Mathlib.Tactic.Common

/-!
# A small x86 machine

The 32-bit instructions an interrupt return needs : moves between registers, memory and
segment registers, the stack, `or` and `add` with a constant, `call`, `ret` and `iretd`
from the kernel. Memory is flat and made of bytes. Which flags an arithmetic instruction
leaves is a parameter, and so is where the assembler puts each instruction. `exec_block`
runs a stretch of straight-line code at once.
-/

namespace X86

/-- The general purpose registers. -/
inductive Reg
  | eax | ebx | ecx | edx | esi | edi | ebp | esp
  deriving DecidableEq

/-- The segment registers. -/
inductive SReg
  | cs | ds | es | fs | gs | ss
  deriving DecidableEq

/-- The memory, a byte for each address. -/
abbrev Memory := ℕ → UInt8

/-- The byte `i` of the word `v`. -/
def byteOf (v i : ℕ) : UInt8 := UInt8.ofNat (v / 256 ^ i)

/-- The little-endian 32-bit word at `a`. -/
def read32 (m : Memory) (a : ℕ) : ℕ :=
  (m a).toNat + (m (a + 1)).toNat * 256 + (m (a + 2)).toNat * 65536 + (m (a + 3)).toNat * 16777216

/-- The little-endian 16-bit word at `a`. -/
def read16 (m : Memory) (a : ℕ) : ℕ := (m a).toNat + (m (a + 1)).toNat * 256

/-- The word `v` stored at `a`. -/
def write32 (m : Memory) (a v : ℕ) : Memory := fun b =>
  if a ≤ b ∧ b < a + 4 then byteOf v (b - a) else m b

/-- The state of the processor. -/
structure Cpu where
  reg : Reg → ℕ
  sreg : SReg → ℕ
  eflags : ℕ
  eip : ℕ
  mem : Memory

namespace Cpu

/-- A register is written. -/
def set (c : Cpu) (r : Reg) (v : ℕ) : Cpu :=
  { c with reg := fun r' => if r' = r then v else c.reg r' }

/-- A segment register is loaded. -/
def setSeg (c : Cpu) (s : SReg) (v : ℕ) : Cpu :=
  { c with sreg := fun s' => if s' = s then v else c.sreg s' }

/-- The flags are loaded. -/
def setFlags (c : Cpu) (v : ℕ) : Cpu := { c with eflags := v }

/-- Execution goes on elsewhere. -/
def goto (c : Cpu) (a : ℕ) : Cpu := { c with eip := a }

/-- The address `base + off`, in 32 bits. -/
def addr (c : Cpu) (base : Reg) (off : ℕ) : ℕ := (c.reg base + off) % 4294967296

/-- A word is pushed. -/
def push (c : Cpu) (v : ℕ) : Cpu :=
  let sp := (c.reg .esp + 4294967292) % 4294967296
  { c.set .esp sp with mem := write32 c.mem sp v }

/-- The word on top of the stack. -/
def top (c : Cpu) : ℕ := read32 c.mem (c.reg .esp)

/-- `n` bytes are taken off the stack. -/
def drop (c : Cpu) (n : ℕ) : Cpu := c.set .esp ((c.reg .esp + n) % 4294967296)

end Cpu

namespace Cpu

variable (c : Cpu) (v n : ℕ)

@[simp] theorem goto_reg (r : Reg) : (c.goto n).reg r = c.reg r := rfl

@[simp] theorem goto_mem : (c.goto n).mem = c.mem := rfl

/-- To push moves the stack pointer down. -/
theorem push_esp : (c.push v).reg .esp = (c.reg .esp + 4294967292) % 4294967296 := by
  simp only [push, set, if_true]

theorem push_reg {r : Reg} (hr : r ≠ .esp) : (c.push v).reg r = c.reg r := by
  simp only [push, set, if_neg hr]

/-- And stores the word there. -/
theorem push_mem :
    (c.push v).mem = write32 c.mem ((c.reg .esp + 4294967292) % 4294967296) v := by
  simp only [push]

/-- To drop moves the stack pointer up. -/
theorem drop_esp : (c.drop n).reg .esp = (c.reg .esp + n) % 4294967296 := by
  simp only [drop, set, if_true]

theorem drop_reg {r : Reg} (hr : r ≠ .esp) : (c.drop n).reg r = c.reg r := by
  simp only [drop, set, if_neg hr]

end Cpu

/-- What `pushf` stores : the VM and RF bits are cleared. -/
def flagsImage (eflags : ℕ) : ℕ := eflags &&& 0x00fcffff

/-- Instructions that go on to the next one. -/
inductive Straight
  /-- `mov d, s` -/
  | mov (d s : Reg)
  /-- `mov d, [base + off]` -/
  | load (d base : Reg) (off : ℕ)
  /-- `mov ax, [base + off]` -/
  | loadAx (base : Reg) (off : ℕ)
  /-- `mov s, ax` -/
  | movSeg (s : SReg)
  /-- `push dword [base + off]` -/
  | pushMem (base : Reg) (off : ℕ)
  /-- `push r` -/
  | push (r : Reg)
  /-- `pop r` -/
  | pop (r : Reg)
  /-- `pushf` -/
  | pushf
  /-- `or r, imm` -/
  | or (r : Reg) (imm : ℕ)
  /-- `add r, imm` -/
  | add (r : Reg) (imm : ℕ)

/-- An instruction, in straight code or at its end. -/
inductive Instr
  | straight (i : Straight)
  | call (target : ℕ)
  | ret
  | iretd

/-- The flags after an arithmetic instruction, from the flags before and the result. -/
abbrev AluFlags := (eflags result : ℕ) → ℕ

variable (alu : AluFlags)

/-- The effect of a straight-line instruction, the instruction pointer apart. -/
def Straight.exec (c : Cpu) : Straight → Cpu
  | mov d s => c.set d (c.reg s)
  | load d base off => c.set d (read32 c.mem (c.addr base off))
  | loadAx base off =>
    c.set .eax (c.reg .eax / 65536 * 65536 + read16 c.mem (c.addr base off))
  | movSeg s => c.setSeg s (c.reg .eax % 65536)
  | pushMem base off => c.push (read32 c.mem (c.addr base off))
  | push r => c.push (c.reg r)
  -- the stack pointer moves before the register is written
  | pop r => (c.drop 4).set r c.top
  | pushf => c.push (flagsImage c.eflags)
  | or r imm =>
    let v := c.reg r ||| imm
    (c.set r v).setFlags (alu c.eflags v)
  | add r imm =>
    let v := (c.reg r + imm) % 4294967296
    (c.set r v).setFlags (alu c.eflags v)

/-- `iretd` in the kernel. A return to a less privileged code segment also pops the
stack pointer and the stack segment. -/
def iretd (c : Cpu) : Cpu :=
  let sp := c.reg .esp
  let cs := read32 c.mem ((sp + 4) % 4294967296) % 65536
  let c' := (((c.drop 12).goto (read32 c.mem sp)).setSeg .cs cs).setFlags
    (read32 c.mem ((sp + 8) % 4294967296))
  if cs % 4 = 0 then c'
  else (c'.set .esp (read32 c.mem ((sp + 12) % 4294967296))).setSeg .ss
    (read32 c.mem ((sp + 16) % 4294967296) % 65536)

/-- The effect of an instruction that is followed by the one at `next`. -/
def Instr.exec (c : Cpu) (next : ℕ) : Instr → Cpu
  | straight i => (i.exec alu c).goto next
  | call target => (c.push next).goto target
  | ret => (c.drop 4).goto c.top
  | iretd => X86.iretd c

/-- The instruction at an address and the address of the one that follows it. -/
abbrev Code := ℕ → Option (Instr × ℕ)

/-- `is` stands in `code` from `addrs 0` on. -/
def Loaded (code : Code) (addrs : ℕ → ℕ) (is : List Instr) : Prop :=
  ∀ n i, is[n]? = some i → code (addrs n) = some (i, addrs (n + 1))

/-- Some number of steps, none of them an `iretd`, leads from the first state to the
second. -/
inductive Runs (code : Code) : Cpu → Cpu → Prop
  | refl (c : Cpu) : Runs code c c
  | step {c c' : Cpu} {i : Instr} {next : ℕ} : code c.eip = some (i, next) → i ≠ .iretd →
      Runs code (i.exec alu c next) c' → Runs code c c'

variable {alu} {code : Code} {addrs : ℕ → ℕ}

/-- Runs compose. -/
theorem Runs.trans {c c' c'' : Cpu} (h : Runs alu code c c') (h' : Runs alu code c' c'') :
    Runs alu code c c'' := by
  induction h with
  | refl c => exact h'
  | step hi hne _ ih => exact .step hi hne (ih h')

/-- The machine comes to its next `iretd` in one state only. -/
theorem Runs.unique {c c' c'' : Cpu} {n n' : ℕ} (h : Runs alu code c c')
    (hc' : code c'.eip = some (.iretd, n)) (h' : Runs alu code c c'')
    (hc'' : code c''.eip = some (.iretd, n')) : c' = c'' := by
  induction h with
  | refl c =>
    cases h' with
    | refl => rfl
    | step hi hne _ =>
      rw [hc'] at hi
      cases hi
      exact absurd rfl hne
  | step hi hne _ ih =>
    cases h' with
    | refl =>
      rw [hc''] at hi
      cases hi
      exact absurd rfl hne
    | step hi' _ hrest =>
      rw [hi] at hi'
      cases hi'
      exact ih hc' hrest

/-- A call pushes the address of the next instruction. -/
theorem Runs.call {c : Cpu} {target next : ℕ} (h : code c.eip = some (.call target, next)) :
    Runs alu code c ((c.push next).goto target) :=
  .step h (by simp) (.refl _)

/-- A return pops it. -/
theorem Runs.ret {c : Cpu} {next : ℕ} (h : code c.eip = some (.ret, next)) :
    Runs alu code c ((c.drop 4).goto c.top) :=
  .step h (by simp) (.refl _)

/-- Straight-line code, one instruction after the other. -/
def execAll (alu : AluFlags) (c : Cpu) (is : List Straight) : Cpu :=
  is.foldl (fun c i => i.exec alu c) c

/-- A part of loaded code is loaded. -/
theorem Loaded.drop {is : List Instr} (h : Loaded code addrs is) (n : ℕ) :
    Loaded code (fun i => addrs (n + i)) (is.drop n) := by
  intro i instr hi
  rw [List.getElem?_drop] at hi
  exact h (n + i) instr hi

/-- No effect of a straight-line instruction depends on the instruction pointer. -/
theorem Straight.exec_goto (c : Cpu) (a b : ℕ) (i : Straight) :
    ((i.exec alu c).goto a) = ((i.exec alu (c.goto b)).goto a) := by
  cases i <;> rfl

/-- Straight code does not look at the instruction pointer. -/
theorem execAll_goto (c : Cpu) (a b : ℕ) : ∀ is : List Straight,
    (execAll alu c is).goto a = (execAll alu (c.goto b) is).goto a := by
  intro is
  induction is generalizing c b with
  | nil => rfl
  | cons i is ih =>
    simp only [execAll, List.foldl_cons] at ih ⊢
    rw [ih (i.exec alu c) b, Straight.exec_goto c b b i, ih (i.exec alu (c.goto b)) b]

/-- A block of straight-line code runs to the instruction after it. -/
theorem exec_block {is : List Instr} {block : List Straight} {n : ℕ} (h : Loaded code addrs is)
    (hblock : block.map .straight <+: is.drop n) {c : Cpu} (hc : c.eip = addrs n) :
    Runs alu code c ((execAll alu c block).goto (addrs (n + block.length))) := by
  induction block generalizing n c with
  | nil =>
    have : c = c.goto (addrs n) := by rw [← hc]; rfl
    rw [execAll, List.foldl_nil, List.length_nil, Nat.add_zero, ← this]
    exact .refl c
  | cons i block ih =>
    obtain ⟨rest, hrest⟩ := hblock
    have hi : is[n]? = some (.straight i) := by
      have := congrArg (·[0]?) hrest
      simpa [List.getElem?_drop] using this.symm
    have htail : block.map .straight <+: is.drop (n + 1) := by
      refine ⟨rest, ?_⟩
      have := congrArg List.tail hrest
      simpa [List.tail_drop] using this
    refine .step (by rw [hc]; exact h n _ hi) (by simp) ?_
    have := ih htail (c := (i.exec alu c).goto (addrs (n + 1))) rfl
    rw [← execAll_goto] at this
    rw [List.length_cons, show n + (block.length + 1) = n + 1 + block.length by omega]
    exact this

/-! ## Memory -/

/-- A byte of a word as a number. -/
theorem byteOf_toNat (v i : ℕ) : (byteOf v i).toNat = v / 256 ^ i % 256 := by
  simp [byteOf]

/-- What is written is read back. -/
theorem read32_write32_self (m : Memory) (a : ℕ) {v : ℕ} (hv : v < 4294967296) :
    read32 (write32 m a v) a = v := by
  have hbyte : ∀ i < 4, write32 m a v (a + i) = byteOf v i := by
    intro i hi
    rw [write32, if_pos (by omega), Nat.add_sub_cancel_left]
  have h0 := hbyte 0 (by omega)
  rw [Nat.add_zero] at h0
  simp only [read32, h0, hbyte 1 (by omega), hbyte 2 (by omega), hbyte 3 (by omega), byteOf_toNat]
  omega

/-- A store does not change the bytes apart from it. -/
theorem write32_of_apart (m : Memory) {a b v : ℕ} (h : b < a ∨ a + 4 ≤ b) :
    write32 m a v b = m b := if_neg (by omega)

/-- A store does not change the words apart from it. -/
theorem read32_write32_of_apart (m : Memory) {a b v : ℕ} (h : b + 4 ≤ a ∨ a + 4 ≤ b) :
    read32 (write32 m a v) b = read32 m b := by
  simp only [read32]
  rw [write32_of_apart m (by omega), write32_of_apart m (by omega), write32_of_apart m (by omega),
    write32_of_apart m (by omega)]

/-- The words `ws` stored one after the other from `a` on. -/
def storeWords (m : Memory) (a : ℕ) : List ℕ → Memory
  | [] => m
  | w :: ws => write32 (storeWords m (a + 4) ws) a w

/-- A word beside those that are stored. -/
theorem read32_storeWords_of_apart (m : Memory) {b : ℕ} : ∀ (ws : List ℕ) (a : ℕ),
    b + 4 ≤ a ∨ a + 4 * ws.length ≤ b → read32 (storeWords m a ws) b = read32 m b
  | [], _, _ => rfl
  | w :: ws, a, h => by
    rw [List.length_cons] at h
    rw [storeWords, read32_write32_of_apart _ (by omega),
      read32_storeWords_of_apart m ws (a + 4) (by omega)]

/-- Each of the stored words is read back, by recursion on their list. -/
theorem read32_storeWords (m : Memory) : ∀ (ws : List ℕ) (a i w : ℕ), ws[i]? = some w →
    w < 4294967296 → read32 (storeWords m a ws) (a + 4 * i) = w
  | w :: ws, a, 0, w', hi, hw => by
    obtain rfl : w = w' := by simpa using hi
    exact read32_write32_self _ _ hw
  | w :: ws, a, i + 1, w', hi, hw => by
    rw [storeWords, read32_write32_of_apart _ (by omega),
      show a + 4 * (i + 1) = a + 4 + 4 * i by omega]
    exact read32_storeWords m ws (a + 4) i w' (by simpa using hi) hw

theorem read32_lt (m : Memory) (a : ℕ) : read32 m a < 4294967296 := by
  have h0 := (m a).toNat_lt
  have h1 := (m (a + 1)).toNat_lt
  have h2 := (m (a + 2)).toNat_lt
  have h3 := (m (a + 3)).toNat_lt
  unfold read32
  omega

/-- A word depends on its four bytes only. -/
theorem read32_congr {m m' : Memory} {a : ℕ} (h : ∀ b, a ≤ b → b < a + 4 → m b = m' b) :
    read32 m a = read32 m' a := by
  simp only [read32]
  rw [h a (by omega) (by omega), h (a + 1) (by omega) (by omega), h (a + 2) (by omega) (by omega),
    h (a + 3) (by omega) (by omega)]

theorem flagsImage_lt (eflags : ℕ) : flagsImage eflags < 4294967296 :=
  Nat.lt_of_le_of_lt Nat.and_le_right (by decide)

/-! ## A window of the stack

What is known of a state while a routine works on its stack frame : the words pushed so
far, the values of some registers, and that memory outside the frame has not changed.
One rule for each instruction. -/

/-- The words `ws` were pushed below `hi`, the memory outside `[lo, hi)` is `m₀`, the
registers hold the values in `known` and the flags are `flags`, where these are given. -/
structure Window (lo hi : ℕ) (m₀ : Memory) (ws : List ℕ) (known : Reg → Option ℕ)
    (flags : Option ℕ) (c : Cpu) : Prop where
  esp : c.reg .esp + 4 * ws.length = hi
  word : ∀ i w, ws[i]? = some w → read32 c.mem (c.reg .esp + 4 * i) = w
  frame : ∀ b, b < lo ∨ hi ≤ b → c.mem b = m₀ b
  reg : ∀ r v, r ≠ .esp → known r = some v → c.reg r = v
  eflags : ∀ v, flags = some v → c.eflags = v

namespace Window

variable {lo hi : ℕ} {m₀ : Memory} {ws : List ℕ} {known : Reg → Option ℕ} {flags : Option ℕ}
  {c : Cpu} {d : Reg} {v w : ℕ}

theorem goto (h : Window lo hi m₀ ws known flags c) (a : ℕ) :
    Window lo hi m₀ ws known flags (c.goto a) :=
  ⟨h.esp, h.word, h.frame, h.reg, h.eflags⟩

theorem setSeg (h : Window lo hi m₀ ws known flags c) (s : SReg) (v : ℕ) :
    Window lo hi m₀ ws known flags (c.setSeg s v) :=
  ⟨h.esp, h.word, h.frame, h.reg, h.eflags⟩

/-- Of loaded flags nothing is known. -/
theorem setFlags (h : Window lo hi m₀ ws known flags c) (v : ℕ) :
    Window lo hi m₀ ws known none (c.setFlags v) :=
  ⟨h.esp, h.word, h.frame, h.reg, fun _ e => nomatch e⟩

/-- A register is written, with a known value or not. -/
theorem set (h : Window lo hi m₀ ws known flags c) (hd : d ≠ .esp) {o : Option ℕ}
    (ho : ∀ w, o = some w → v = w) :
    Window lo hi m₀ ws (Function.update known d o) flags (c.set d v) := by
  have hesp : (c.set d v).reg .esp = c.reg .esp := if_neg hd.symm
  refine ⟨by rw [hesp]; exact h.esp, by rw [hesp]; exact h.word, h.frame, fun r u hr hk => ?_,
    h.eflags⟩
  by_cases hrd : r = d
  · subst hrd
    rw [Function.update_self] at hk
    exact (if_pos rfl).trans (ho u hk)
  · rw [Function.update_of_ne hrd] at hk
    exact (if_neg hrd).trans (h.reg r u hr hk)

/-- A word outside the frame. -/
theorem read_outside (h : Window lo hi m₀ ws known flags c) {a : ℕ} (ha : a + 4 ≤ lo ∨ hi ≤ a) :
    read32 c.mem a = read32 m₀ a :=
  read32_congr fun b hb hb' => h.frame b (by omega)

/-- One more word on the stack. -/
theorem push (h : Window lo hi m₀ ws known flags c) (hhi : hi ≤ 4294967296)
    (hroom : lo + 4 * (ws.length + 1) ≤ hi) (hv : v < 4294967296) :
    Window lo hi m₀ (v :: ws) known flags (c.push v) := by
  have hesp := h.esp
  have hsp : (c.reg .esp + 4294967292) % 4294967296 = c.reg .esp - 4 := by omega
  have hsp' : (c.push v).reg .esp = c.reg .esp - 4 := by rw [Cpu.push_esp, hsp]
  have hmem : (c.push v).mem = write32 c.mem (c.reg .esp - 4) v := by rw [Cpu.push_mem, hsp]
  refine ⟨?_, fun i w hi => ?_, fun b hb => ?_, fun r u hr hk => ?_, h.eflags⟩
  · rw [hsp', List.length_cons]
    omega
  · rw [hsp', hmem]
    cases i with
    | zero =>
      obtain rfl : v = w := by simpa using hi
      exact read32_write32_self _ _ hv
    | succ i =>
      rw [read32_write32_of_apart _ (by omega),
        show c.reg .esp - 4 + 4 * (i + 1) = c.reg .esp + 4 * i by omega]
      exact h.word i w (by simpa using hi)
  · rw [hmem, write32_of_apart _ (by omega), h.frame b hb]
  · rw [Cpu.push_reg _ _ hr, h.reg r u hr hk]

/-- The word on top is the last that was pushed. -/
theorem top (h : Window lo hi m₀ (w :: ws) known flags c) : c.top = w :=
  h.word 0 w rfl

/-- It is taken off. -/
theorem drop (h : Window lo hi m₀ (w :: ws) known flags c) (hhi : hi < 4294967296) :
    Window lo hi m₀ ws known flags (c.drop 4) := by
  have hesp := h.esp
  rw [List.length_cons] at hesp
  have hsp : (c.drop 4).reg .esp = c.reg .esp + 4 := by
    rw [Cpu.drop_esp, Nat.mod_eq_of_lt (by omega)]
  refine ⟨by rw [hsp]; omega, fun i u hi => ?_, h.frame, fun r u hr hk => ?_, h.eflags⟩
  · have := h.word (i + 1) u (by simpa using hi)
    rw [hsp, ← this]
    show read32 c.mem _ = _
    congr 1
    omega
  · rw [Cpu.drop_reg _ _ hr, h.reg r u hr hk]

/-! ### The rules -/

/-- `Q` holds after the straight-line code `is`. -/
def After (alu : AluFlags) (c : Cpu) (is : List Straight) (Q : Cpu → Prop) : Prop :=
  Q (execAll alu c is)

variable {alu : AluFlags} {is : List Straight} {Q : Cpu → Prop} {base : Reg} {b off imm : ℕ}

/-- `mov` from the stack pointer, whose value is known. -/
theorem mov_esp (h : Window lo hi m₀ ws known flags c) (hd : d ≠ .esp)
    (hQ : ∀ c', Window lo hi m₀ ws (Function.update known d (some (hi - 4 * ws.length))) flags c' →
      After alu c' is Q) : After alu c (.mov d .esp :: is) Q := by
  refine hQ _ (h.set hd fun w hw => ?_)
  have := h.esp
  obtain rfl := Option.some.inj hw
  omega

/-- An address from a known base. -/
theorem addr_eq (h : Window lo hi m₀ ws known flags c) (hb : base ≠ .esp)
    (hk : known base = some b) (hlt : b + off < 4294967296) : c.addr base off = b + off := by
  rw [Cpu.addr, h.reg base b hb hk, Nat.mod_eq_of_lt hlt]

/-- A load from outside the window reads the memory as it was. -/
theorem load (h : Window lo hi m₀ ws known flags c) (hd : d ≠ .esp) (hb : base ≠ .esp)
    (hk : known base = some b) (hlt : b + off < 4294967296) (ha : b + off + 4 ≤ lo ∨ hi ≤ b + off)
    (hQ : ∀ c', Window lo hi m₀ ws (Function.update known d (some (read32 m₀ (b + off)))) flags c' →
      After alu c' is Q) : After alu c (.load d base off :: is) Q := by
  refine hQ _ (h.set hd fun w hw => ?_)
  rw [h.addr_eq hb hk hlt, h.read_outside ha]
  exact Option.some.inj hw

/-- A load from the frame itself. -/
theorem load_word (h : Window lo hi m₀ ws known flags c) (hd : d ≠ .esp) (hb : base ≠ .esp)
    (hk : known base = some b) (hlt : b + off < 4294967296) {i : ℕ} (hi' : ws[i]? = some w)
    (ha : b + off + 4 * ws.length = hi + 4 * i)
    (hQ : ∀ c', Window lo hi m₀ ws (Function.update known d (some w)) flags c' →
      After alu c' is Q) : After alu c (.load d base off :: is) Q := by
  refine hQ _ (h.set hd fun u hu => ?_)
  have := h.esp
  rw [h.addr_eq hb hk hlt, show b + off = c.reg .esp + 4 * i by omega, h.word i w hi']
  exact Option.some.inj hu

/-- Of a half register nothing is known. -/
theorem loadAx (h : Window lo hi m₀ ws known flags c)
    (hQ : ∀ c', Window lo hi m₀ ws (Function.update known .eax none) flags c' →
      After alu c' is Q) : After alu c (.loadAx base off :: is) Q :=
  hQ _ (h.set (by decide) fun _ hw => nomatch hw)

/-- A segment register is loaded from `ax`. -/
theorem movSeg {s : SReg} (h : Window lo hi m₀ ws known flags c)
    (hQ : ∀ c', Window lo hi m₀ ws known flags c' → After alu c' is Q) :
    After alu c (.movSeg s :: is) Q :=
  hQ _ (h.setSeg s _)

/-- A word of the memory outside the window is pushed. -/
theorem pushMem (h : Window lo hi m₀ ws known flags c) (hhi : hi ≤ 4294967296)
    (hroom : lo + 4 * (ws.length + 1) ≤ hi) (hb : base ≠ .esp) (hk : known base = some b)
    (hlt : b + off < 4294967296) (ha : b + off + 4 ≤ lo ∨ hi ≤ b + off)
    (hQ : ∀ c', Window lo hi m₀ (read32 m₀ (b + off) :: ws) known flags c' →
      After alu c' is Q) : After alu c (.pushMem base off :: is) Q := by
  refine hQ _ ?_
  rw [← h.read_outside ha, ← h.addr_eq hb hk hlt]
  exact h.push hhi hroom (read32_lt _ _)

/-- A known register is pushed. -/
theorem pushReg (h : Window lo hi m₀ ws known flags c) (hhi : hi ≤ 4294967296)
    (hroom : lo + 4 * (ws.length + 1) ≤ hi) (hd : d ≠ .esp) (hk : known d = some v)
    (hv : v < 4294967296)
    (hQ : ∀ c', Window lo hi m₀ (v :: ws) known flags c' → After alu c' is Q) :
    After alu c (.push d :: is) Q := by
  refine hQ _ ?_
  rw [← h.reg d v hd hk] at hv ⊢
  exact h.push hhi hroom hv

/-- The flags are pushed as their image. -/
theorem pushf (h : Window lo hi m₀ ws known (some v) c) (hhi : hi ≤ 4294967296)
    (hroom : lo + 4 * (ws.length + 1) ≤ hi)
    (hQ : ∀ c', Window lo hi m₀ (flagsImage v :: ws) known (some v) c' → After alu c' is Q) :
    After alu c (.pushf :: is) Q := by
  have hv := h.eflags v rfl
  refine hQ _ ?_
  subst hv
  exact h.push hhi hroom (flagsImage_lt _)

/-- The word on top goes to a register. -/
theorem pop (h : Window lo hi m₀ (w :: ws) known flags c) (hhi : hi < 4294967296) (hd : d ≠ .esp)
    (hQ : ∀ c', Window lo hi m₀ ws (Function.update known d (some w)) flags c' →
      After alu c' is Q) : After alu c (.pop d :: is) Q := by
  refine hQ _ ((h.drop hhi).set hd fun u hu => ?_)
  rw [h.top]
  exact Option.some.inj hu

/-- `or` with an immediate changes the flags. -/
theorem or (h : Window lo hi m₀ ws known flags c) (hd : d ≠ .esp) (hk : known d = some v)
    (hQ : ∀ c', Window lo hi m₀ ws (Function.update known d (some (v ||| imm))) none c' →
      After alu c' is Q) : After alu c (.or d imm :: is) Q := by
  refine hQ _ ((h.set hd fun u hu => ?_).setFlags _)
  rw [h.reg d v hd hk]
  exact Option.some.inj hu

/-- The word on top of the stack is skipped. -/
theorem add_esp (h : Window lo hi m₀ (w :: ws) known flags c) (hhi : hi < 4294967296)
    (hQ : ∀ c', Window lo hi m₀ ws known none c' → After alu c' is Q) :
    After alu c (.add .esp 4 :: is) Q :=
  hQ _ ((h.drop hhi).setFlags _)

end Window

end X86
