import Hyperion.InterruptStub
import Hyperion.Lib.Trace
import Hyperion.Terminal

/-!
# Division by zero

Vector 0 leads to `idt_zero`, a C function that ends with `ret` instead of `iretd`. So the
program is not ended : its division is executed again, now in ring 0 and on the kernel's stack,
and fails again (`divideError_repeats`).

Every round prints a line. The screen does not scroll, so the lines go on through the memory
behind it, and after some 1800 rounds they would come to the kernel's image at 0x100000, which
`DivideStep` takes to stay as it is. The result is therefore about the rounds before that, and
shows of them that all they print lies below the image. The processor's part and the printing are
put together from

* `Faulting`, the state between two steps : the ring, the divisor, where the processor is and how
  far the stack has grown;
* `Terminal.Printed`, how far the cursor has come and what was stored on its way, with one lemma
  for a character and one for a line (`print_line`).
-/

namespace Hyperion

open X86 X86.Trap

/-! ## Lines on the screen -/

/-- From `t` the cursor has moved on by `n` cells, and no cell was stored to but these. -/
structure Terminal.Printed (t : Terminal) (n : ℕ) (u : Terminal) : Prop where
  col : u.terminalCol.toNat < 80
  cursor : 80 * u.terminalRow.toNat + u.terminalCol.toNat =
    80 * t.terminalRow.toNat + t.terminalCol.toNat + n
  stores : ∀ cell ∈ u.stores, cell ∈ t.stores ∨
    cell.2 * 80 + cell.1 < 80 * t.terminalRow.toNat + t.terminalCol.toNat + n

variable {t u : Terminal} {n : ℕ}

theorem Terminal.Printed.refl (h : t.terminalCol.toNat < 80) : t.Printed 0 t :=
  ⟨h, rfl, fun _ hcell => .inl hcell⟩

theorem Terminal.Printed.trans {v : Terminal} {m : ℕ} (h : t.Printed n u) (h' : u.Printed m v) :
    t.Printed (n + m) v where
  col := h'.col
  cursor := by rw [h'.cursor, h.cursor, Nat.add_assoc]
  stores cell hcell := by
    have hcursor := h.cursor
    rcases h'.stores cell hcell with hu | hlt
    · exact (h.stores cell hu).imp_right fun hlt => by omega
    · exact .inr (by omega)

/-- A printable character takes one cell. -/
theorem terminalWritechar_printed {c color : UInt8} (h10 : c ≠ 0x0A) (h8 : c ≠ 0x08)
    (hcol : t.terminalCol.toNat < 80) (hrow : t.terminalRow.toNat + 1 < 65536) :
    t.Printed 1 (terminalWritechar c color t) := by
  have hnext : (t.terminalCol + 1).toNat = t.terminalCol.toNat + 1 := by
    rw [UInt16.toNat_add]
    exact Nat.mod_eq_of_lt (show t.terminalCol.toNat + 1 < 65536 by omega)
  have hline : (t.terminalRow + 1).toNat = t.terminalRow.toNat + 1 := by
    rw [UInt16.toNat_add]
    exact Nat.mod_eq_of_lt hrow
  have hwidth : vgaWidth ≤ t.terminalCol + 1 ↔ 80 ≤ t.terminalCol.toNat + 1 := by
    rw [UInt16.le_iff_toNat_le, hnext]
    rfl
  have hstores : ∀ cell ∈ t.stores ++ [((t.terminalCol.toNat : Int), (t.terminalRow.toNat : Int))],
      cell ∈ t.stores ∨
        cell.2 * 80 + cell.1 < 80 * t.terminalRow.toNat + t.terminalCol.toNat + 1 := by
    intro cell hcell
    rcases List.mem_append.mp hcell with hold | hnew
    · exact .inl hold
    · rw [List.mem_singleton.mp hnew]
      exact .inr (by dsimp only; omega)
  rw [terminalWritechar_printable h10 h8]
  split_ifs with hwrap
  · have hlast := hwidth.mp hwrap
    refine ⟨show (0 : UInt16).toNat < 80 by decide, ?_, hstores⟩
    show 80 * (t.terminalRow + 1).toNat + 0 = _
    rw [hline]
    omega
  · have hin := hwidth.not.mp hwrap
    refine ⟨?_, ?_, hstores⟩
    · show (t.terminalCol + 1).toNat < 80
      omega
    · show 80 * t.terminalRow.toNat + (t.terminalCol + 1).toNat = _
      omega

/-- A text of printable characters. -/
theorem print_printed : ∀ {text : List UInt8} {t : Terminal}, (∀ c ∈ text, c ≠ 0x0A ∧ c ≠ 0x08) →
    t.terminalCol.toNat < 80 →
    80 * t.terminalRow.toNat + t.terminalCol.toNat + text.length < 80 * 65535 →
    t.Printed text.length (print text t)
  | [], _, _, hcol, _ => .refl hcol
  | c :: text, t, htext, hcol, hrow => by
    obtain ⟨hc, hrest⟩ := List.forall_mem_cons.mp htext
    rw [List.length_cons] at hrow ⊢
    have h₁ : t.Printed 1 (terminalWritechar c 15 t) :=
      terminalWritechar_printed hc.1 hc.2 hcol (by omega)
    have hcursor := h₁.cursor
    rw [Nat.add_comm]
    exact h₁.trans (print_printed hrest h₁.col (by omega))

/-- A short line begins at most one row further down than the cursor, and ends the row. -/
theorem print_line {text : List UInt8} (htext : ∀ c ∈ text, c ≠ 0x0A ∧ c ≠ 0x08)
    (hlen : text.length < 80) (hcol : t.terminalCol.toNat < 80)
    (hrow : t.terminalRow.toNat + 3 < 65535) :
    (print (text ++ [0x0A]) t).terminalCol = 0 ∧
      (print (text ++ [0x0A]) t).terminalRow.toNat ≤ t.terminalRow.toNat +
        (if t.terminalCol = 0 then 1 else 2) ∧
      ∀ cell ∈ (print (text ++ [0x0A]) t).stores, cell ∈ t.stores ∨
        cell.2 * 80 + cell.1 < 80 * (t.terminalRow.toNat + 2) := by
  have h := print_printed htext hcol (by omega)
  have hcursor := h.cursor
  have hend := h.col
  have hprint : print (text ++ [0x0A]) t = terminalWritechar 0x0A 15 (print text t) := by
    rw [print, List.foldl_append]
    rfl
  have hline : ((print text t).terminalRow + 1).toNat = (print text t).terminalRow.toNat + 1 := by
    rw [UInt16.toNat_add]
    exact Nat.mod_eq_of_lt (show (print text t).terminalRow.toNat + 1 < 65536 by omega)
  rw [hprint, terminalWritechar_newline]
  refine ⟨rfl, ?_, fun cell hcell => ?_⟩
  · show ((print text t).terminalRow + 1).toNat ≤ _
    rw [hline]
    split_ifs with hstart
    · have : t.terminalCol.toNat = 0 := by
        rw [hstart]
        rfl
      omega
    · omega
  · exact (h.stores cell hcell).imp_right fun hlt => by omega

/-! ## The processor -/

/-- A C function entered in `c` returns in `c'`. -/
structure CReturns (c c' : Cpu) : Prop where
  eip : c'.eip = c.top
  esp : c'.reg .esp = (c.reg .esp + 4) % 4294967296
  saved : ∀ r ∈ [Reg.ebx, .esi, .edi, .ebp], c'.reg r = c.reg r
  sreg : c'.sreg = c.sreg

/-- The text of `idt_zero`. -/
def divideText : List UInt8 :=
  [68, 105, 118, 105, 100, 101, 32, 98, 121, 32, 122, 101, 114, 111, 32, 101, 114, 114, 111, 114]

def idtZero (s : Terminal) : Terminal := print (divideText ++ [0x0A]) s

/-- What happens next. -/
inductive DivideEvent
  | instruction
  | idtZero
  deriving DecidableEq

/-- An instruction is executed, or `idt_zero`, at `zeroAddr`, prints its message and returns. -/
inductive DivideStep (alu : AluFlags) (t : Tables) (code : Trap.Code) (zeroAddr : ℕ) :
    Cpu × Terminal → DivideEvent → Cpu × Terminal → Prop
  | instruction {c c' : Cpu} {s : Terminal} {i : Trap.Instr} {next : ℕ} : c.eip ≠ zeroAddr →
      code c.eip = some (i, next) → i.exec alu t c next = some c' →
      DivideStep alu t code zeroAddr (c, s) .instruction (c', s)
  | idtZero {c c' : Cpu} {s : Terminal} : c.eip = zeroAddr → CReturns c c' →
      DivideStep alu t code zeroAddr (c, s) .idtZero (c', idtZero s)

section Rounds

variable {alu : AluFlags} {t : Tables} {code : Trap.Code} {u c c' : Cpu} {x : Cpu × Terminal}
  {s s' s₀ : Terminal} {r : Reg} {zeroAddr a n next : ℕ} {e : DivideEvent}

/-- After `n` steps. The program has not left ring 0 since it came there. -/
structure Faulting (t : Tables) (a zeroAddr : ℕ) (r : Reg) (n : ℕ) (c : Cpu) : Prop where
  ring : c.sreg .cs = 8
  divisor : c.reg r = 0
  place : ∃ k, n = 2 * k + 1 ∧ c.eip = zeroAddr ∧ c.top = a ∧
      (c.reg .esp + 20 + 8 * k) % 4294967296 = t.esp0 % 4294967296 ∨
    n = 2 * k + 2 ∧ c.eip = a ∧ (c.reg .esp + 16 + 8 * k) % 4294967296 = t.esp0 % 4294967296

/-- After `n` steps from the screen `s₀`, with a line printed in every second one. -/
structure LinesPrinted (s₀ : Terminal) (n : ℕ) (s : Terminal) : Prop where
  col : s.terminalCol.toNat < 80
  begun : 2 ≤ n → s.terminalCol = 0
  row : s.terminalRow.toNat ≤ s₀.terminalRow.toNat + n / 2 + if n < 2 then 0 else 1
  stores : ∀ cell ∈ s.stores, cell ∈ s₀.stores ∨
    cell.2 * 80 + cell.1 < 80 * (s₀.terminalRow.toNat + n / 2 + 2)

/-- The division is tried in ring 3. -/
theorem faulting_first {m : Memory} {base : ℕ} {table : ℕ → UInt32} {z wrapper idtr : UInt32}
    {s : Idt} (hm : HoldsIdt m base (idtInit table z wrapper idtr s)) (huser : u.sreg .cs % 4 ≠ 0)
    (hr : r ≠ .esp) (h0 : u.reg r = 0) (hip : u.eip < 4294967296) :
    Faulting (kernelTables m base) u.eip z.toNat r 1 (u.trap (kernelTables m base) 0 u.eip) where
  ring := by
    rw [Window.trap_sreg_cs, idtInit_gate hm (by decide)]
  divisor := by rw [Cpu.trap_reg hr, h0]
  place := by
    refine ⟨0, .inl ⟨rfl, ?_, Cpu.trap_top hip, ?_⟩⟩
    · rw [Window.trap_eip, idtInit_gate hm (by decide)]
      rfl
    · rw [Cpu.trap_esp_user huser]
      omega

/-- A division by 0 at `c.eip`. -/
theorem div_exec (h0 : c.reg r = 0) :
    (Trap.Instr.div r).exec alu t c next = some (c.trap t 0 c.eip) := by
  show some (Trap.div alu t c next r) = _
  rw [Trap.div, if_pos (.inl h0)]

/-- The line of one more round. -/
theorem LinesPrinted.line (h : LinesPrinted s₀ n s) {k : ℕ} (hn : n = 2 * k + 1)
    (hlow : s₀.terminalRow.toNat + k + 4 < 65535) : LinesPrinted s₀ (n + 1) (idtZero s) := by
  obtain ⟨hcol, hbegun, hrow, hstores⟩ := h
  have hrows : s.terminalRow.toNat ≤ s₀.terminalRow.toNat + k + 1 := by
    split_ifs at hrow <;> omega
  obtain ⟨hend, hdown, hnew⟩ : (print (divideText ++ [0x0A]) s).terminalCol = 0 ∧ _ :=
    print_line (by decide +kernel) (by decide +kernel) hcol (by omega)
  refine ⟨by rw [idtZero, hend]; decide, fun _ => hend, hdown.trans ?_, fun cell hcell => ?_⟩
  · rw [if_neg (show ¬n + 1 < 2 by omega)]
    by_cases hk : k = 0
    · rw [if_pos (by omega)] at hrow
      split_ifs <;> omega
    · rw [if_neg (by omega)] at hrow
      rw [if_pos (hbegun (by omega))]
      omega
  · rcases hnew cell hcell with hold | hlt
    · exact (hstores cell hold).imp_right fun hlt => by omega
    · refine .inr (lt_of_lt_of_le hlt ?_)
      split_ifs at hrow <;> omega

/-- `idt_zero` returns to the division, which traps to `idt_zero`. -/
theorem Faulting.step (hr : r ∈ [Reg.ebx, .esi, .edi, .ebp])
    (hcode : code a = some (.div r, next)) (ha : a < 4294967296)
    (hgate : (t.gate 0).offset = zeroAddr ∧ (t.gate 0).selector = 8) (hne : a ≠ zeroAddr)
    (hlow : s₀.terminalRow.toNat + n / 2 + 4 < 65535) (h : Faulting t a zeroAddr r n c)
    (hlines : LinesPrinted s₀ n s) (hs : DivideStep alu t code zeroAddr (c, s) e (c', s')) :
    Faulting t a zeroAddr r (n + 1) c' ∧ LinesPrinted s₀ (n + 1) s' := by
  have hesp : r ≠ .esp := by
    rintro rfl
    exact absurd hr (by decide)
  obtain ⟨hring, h0, k, ⟨hn, heip, htop, hk⟩ | ⟨hn, heip, hk⟩⟩ := h
  · cases hs with
    | instruction hz => exact absurd heip hz
    | idtZero _ hret =>
      refine ⟨⟨by rw [hret.sreg, hring], by rw [hret.saved r hr, h0], k, .inr ⟨by omega, ?_, ?_⟩⟩,
        hlines.line hn (by omega)⟩
      · rw [hret.eip, htop]
      · rw [hret.esp]
        omega
  · cases hs with
    | idtZero hz => exact absurd (heip.symm.trans hz) hne
    | instruction _ hi he =>
      rw [heip, hcode] at hi
      cases hi
      rw [div_exec h0] at he
      cases he
      refine ⟨⟨by rw [Window.trap_sreg_cs, hgate.2], by rw [Cpu.trap_reg hesp, h0],
        k + 1, .inl ⟨by omega, by rw [Window.trap_eip, hgate.1], ?_, ?_⟩⟩, ?_⟩
      · rw [heip, Cpu.trap_top ha]
      · rw [Cpu.trap_esp (by rw [hring])]
        omega
      · obtain ⟨hcol, hbegun, hrow, hstores⟩ := hlines
        rw [if_neg (show ¬n < 2 by omega)] at hrow
        refine ⟨hcol, fun _ => hbegun (by omega), ?_, fun cell hcell => ?_⟩
        · rw [if_neg (show ¬n + 1 < 2 by omega)]
          omega
        · exact (hstores cell hcell).imp_right fun hlt => by omega

/-- A program divides by a register that is 0, and that functions keep. For as long as the lines
of `idt_zero` stay below the kernel's image, it stays in ring 0 from then on, with the processor on
nothing but `idt_zero` and the division, in turn, and 8 bytes more of the kernel's stack taken
each time. -/
theorem divideError_repeats {m : Memory} {base : ℕ} {table : ℕ → UInt32} {z wrapper idtr : UInt32}
    {i : Idt} (hm : HoldsIdt m base (idtInit table z wrapper idtr i))
    (huser : u.sreg .cs % 4 ≠ 0) (hr : r ∈ [Reg.ebx, .esi, .edi, .ebp]) (h0 : u.reg r = 0)
    (hcode : code u.eip = some (.div r, next)) (hip : u.eip < 4294967296)
    (hne : u.eip ≠ z.toNat) (hcol : s₀.terminalCol < vgaWidth)
    {tr : List ((Cpu × Terminal) × DivideEvent × (Cpu × Terminal))}
    (h : Trace (DivideStep alu (kernelTables m base) code z.toNat) (u, s₀) tr x) (htr : tr ≠ [])
    (hlow : 0xB8000 + 160 * (s₀.terminalRow.toNat + tr.length / 2 + 2) ≤ 0x100000) :
    x.1.sreg .cs = 8 ∧
      (∃ k,
        tr.length = 2 * k + 1 ∧ x.1.eip = z.toNat ∧
          (x.1.reg .esp + 20 + 8 * k) % 4294967296 = 0x600000 ∨
        tr.length = 2 * k + 2 ∧ x.1.eip = u.eip ∧
          (x.1.reg .esp + 16 + 8 * k) % 4294967296 = 0x600000) ∧
      ∀ cell ∈ x.2.stores, cell ∈ s₀.stores ∨
        0xB8000 + 2 * (cell.2 * vgaWidth.toNat + cell.1) + 2 ≤ 0x100000 := by
  have hesp : r ≠ .esp := by
    rintro rfl
    exact absurd hr (by decide)
  have hgate := idtInit_gate hm (n := 0) (by decide)
  cases h with
  | nil => exact absurd rfl htr
  | @cons _ x₁ _ _ rest hs hrest =>
    rw [List.length_cons] at hlow
    have h₁ : Faulting (kernelTables m base) u.eip z.toNat r 1 x₁.1 ∧ LinesPrinted s₀ 1 x₁.2 := by
      cases hs with
      | idtZero hz => exact absurd hz hne
      | instruction _ hi he =>
        rw [hcode] at hi
        cases hi
        rw [div_exec h0] at he
        cases he
        refine ⟨faulting_first hm huser hesp h0 hip, ?_⟩
        exact ⟨hcol, fun h => absurd h (by decide), le_rfl, fun _ hcell => .inl hcell⟩
    have hall := hrest.history (I := fun tr x =>
      tr.length ≤ rest.length → Faulting (kernelTables m base) u.eip z.toNat r (1 + tr.length) x.1 ∧
        LinesPrinted s₀ (1 + tr.length) x.2) [] (fun _ => h₁)
      fun tr₁ y l y' tr₂ _ hs hI hlen => by
        obtain ⟨c, s⟩ := y
        obtain ⟨c', s'⟩ := y'
        rw [List.nil_append] at hI hlen ⊢
        rw [List.length_append, List.length_singleton] at hlen ⊢
        obtain ⟨hfault, hlines⟩ := hI (by omega)
        have hrows : s₀.terminalRow.toNat + (1 + tr₁.length) / 2 + 4 < 65535 := by omega
        exact hfault.step hr hcode hip (by rw [hgate]; exact ⟨rfl, rfl⟩) hne hrows hlines hs
    obtain ⟨⟨hring, -, k, hplace⟩, hlines⟩ := hall.1 le_rfl
    have hlen : 1 + (([] : List ((Cpu × Terminal) × DivideEvent × (Cpu × Terminal))) ++
      rest).length =
        rest.length + 1 := Nat.add_comm _ _
    rw [hlen] at hplace hlines
    refine ⟨hring, ⟨k, ?_⟩, fun cell hcell => ?_⟩
    · rcases hplace with ⟨hn, heip, -, hk⟩ | ⟨hn, heip, hk⟩
      · exact .inl ⟨hn, heip, hk⟩
      · exact .inr ⟨hn, heip, hk⟩
    · refine (hlines.stores cell hcell).imp_right fun hlt => ?_
      have hwidth : vgaWidth.toNat = 80 := rfl
      rw [hwidth]
      omega

end Rounds

/-- `c` after a function that changes no register. -/
def returnedCpu (c : Cpu) : Cpu := (c.drop 4).goto c.top

theorem returnedCpu_returns (c : Cpu) : CReturns c (returnedCpu c) where
  eip := rfl
  esp := Cpu.drop_esp c 4
  saved r hr := Cpu.drop_reg c 4 (by rintro rfl; exact absurd hr (by decide))
  sreg := rfl

/-- A program at 0x400010 divides by `ebx`, and `idt_zero` returns, on an empty screen. -/
theorem divideError_repeats_once :
    ∃ tr x, Trace (DivideStep (fun f _ => f) (kernelTables (idtMemory 0x106000 stubIdt) 0x106000)
      (layout 0x400010 [.div .ebx]) 0x105000) (userCpu.set .ebx 0, .boot fun _ => 0) tr x ∧
      x.1.sreg .cs = 8 ∧ x.1.eip = 0x400010 := by
  have hcode : layout 0x400010 [.div .ebx] 0x400010 = some (.div .ebx, 0x400014) :=
    layout_loaded 0x400010 [.div .ebx] 0 _ rfl
  have htop : ((userCpu.set .ebx 0).trap (kernelTables (idtMemory 0x106000 stubIdt) 0x106000) 0
      0x400010).eip = 0x105000 := by
    rw [Window.trap_eip, idtInit_gate (idtMemory_holds 0x106000 stubIdt) (by decide)]
    decide
  have hrun : Trace (DivideStep (fun f _ => f)
      (kernelTables (idtMemory 0x106000 stubIdt) 0x106000) (layout 0x400010 [.div .ebx])
      (0x105000 : UInt32).toNat) (userCpu.set .ebx 0, .boot fun _ => 0) _ _ :=
    .cons (.instruction (show 0x400010 ≠ 0x105000 by decide) hcode (div_exec rfl))
      (.cons (.idtZero htop (returnedCpu_returns _)) (.nil _))
  have hrounds := divideError_repeats (idtMemory_holds 0x106000 stubIdt) (by decide) (by decide)
    rfl hcode (by decide) (by decide) (by decide) hrun (by simp) (by decide)
  obtain ⟨hring, ⟨k, ⟨hlen, -⟩ | ⟨-, heip, -⟩⟩, -⟩ := hrounds
  · simp only [List.length_cons, List.length_nil] at hlen
    omega
  · exact ⟨_, _, hrun, hring, heip⟩

end Hyperion
