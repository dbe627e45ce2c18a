import Hyperion.Lib.X86Trap
import Hyperion.Config
import Mathlib.Data.UInt

/-!
# The interrupt descriptor table

`idt.c` : the descriptors of 512 interrupts, the callbacks of `interrupt_handler` and the table of
system calls. The processor reads the address that `idt_set` was given, for every address, and a
program may raise all the interrupts (`idtInit_gates`). Vector 0 leads past
`interrupt_handler` to `idt_zero`, so that the callback registered for it never runs.

`Idt` has the globals and what `lidt` was given. `idt_set` splits an address into two halves, which
a descriptor has at its two ends, and the processor puts them together again
(`HoldsDesc.gateAt_descOf`). The loops of `idt_init` are folds over ranges, each with a lemma on
what is in the table after the rounds up to `n` (`idtSet_range`, `idtRegister_range`), and
`idtInit_eq` is all that is left at the end.

What the processor sees is read from the bytes of the table at the base that `lidt` was given, up
to the limit (`HoldsIdt`, `Idt.tableBase`). Every gate has privilege level 3 (`idtInit_dpl`).
-/

namespace Hyperion

open X86

/-! ## `idt.h` and `idt.c` -/

/-- `HARDIKHYPERIONOS_TOTAL_INTERRUPTS`. -/
def totalInterrupts : ℕ := 512

/-- `HARDIKHYPERIONOS_MAX_ISR80H_COMMANDS`. -/
def maxIsr80hCommands : ℕ := 1024

/-- `KERNEL_CODE_SELECTOR`. -/
def kernelCodeSelector : UInt16 := 0x08

/-- `struct idt_desc`. -/
structure IdtDesc where
  offset1 : UInt16
  selector : UInt16
  zero : UInt8
  typeAttr : UInt8
  offset2 : UInt16
  deriving DecidableEq

/-- The packed bytes of a descriptor. -/
def IdtDesc.bytes (d : IdtDesc) : List UInt8 :=
  [d.offset1.toUInt8, (d.offset1 >>> 8).toUInt8, d.selector.toUInt8, (d.selector >>> 8).toUInt8,
    d.zero, d.typeAttr, d.offset2.toUInt8, (d.offset2 >>> 8).toUInt8]

/-- The functions that are registered as callbacks. -/
inductive InterruptCallback
  | idtHandleException
  | idtClock
  | classicKeyboardHandleInterrupt
  deriving DecidableEq

/-- The functions that are registered as system calls. -/
inductive Isr80hCommand
  | command0Sum
  | command1Print
  | command2Getkey
  | command3Putchar
  | command4Malloc
  | command5Free
  | command6ProcessLoadStart
  | command7InvokeSystemCommand
  | command8GetProgramArguments
  | command9Exit
  deriving DecidableEq

/-- The globals of `idt.c`. `idtr` is what `lidt` was given : the limit and the base. -/
structure Idt where
  idtDescriptors : ℕ → IdtDesc
  interruptCallbacks : ℕ → Option InterruptCallback
  isr80hCommands : ℕ → Option Isr80hCommand
  idtr : UInt16 × UInt32

/-- The globals before `idt_init`. -/
def Idt.boot : Idt := ⟨fun _ => ⟨0, 0, 0, 0, 0⟩, fun _ => none, fun _ => none, (0, 0)⟩

def idtSet (interruptNo : ℕ) (address : UInt32) (s : Idt) : Idt := { s with
  idtDescriptors := Function.update s.idtDescriptors interruptNo
    { offset1 := (address &&& 0x0000ffff).toUInt16
      selector := kernelCodeSelector
      zero := 0x00
      typeAttr := 0xEE
      offset2 := (address >>> 16).toUInt16 } }

def idtRegisterInterruptCallback (interrupt : Int) (interruptCallback : InterruptCallback)
    (s : Idt) : Int × Idt :=
  if interrupt < 0 ∨ (totalInterrupts : Int) ≤ interrupt then (-EINVARG, s)
  else (0, { s with
    interruptCallbacks :=
      Function.update s.interruptCallbacks interrupt.toNat (some interruptCallback) })

/-- With the routines of `interrupt_pointer_table`, `idt_zero` and `isr80h_wrapper`, and the
descriptors at `base`. -/
def idtInit (interruptPointerTable : ℕ → UInt32) (idtZero isr80hWrapper base : UInt32) (s : Idt) :
    Idt :=
  let s := { s with
    idtDescriptors := fun _ => ⟨0, 0, 0, 0, 0⟩
    idtr := (8 * 512 - 1, base) }
  let s := (List.range totalInterrupts).foldl
    (fun s i => idtSet i (interruptPointerTable i) s) s
  let s := idtSet 0 idtZero s
  let s := idtSet 0x80 isr80hWrapper s
  let s := (List.range 0x20).foldl
    (fun s (i : ℕ) => (idtRegisterInterruptCallback i .idtHandleException s).2) s
  (idtRegisterInterruptCallback 0x20 .idtClock s).2

/-- A command out of bounds, or in a place that is taken, is a panic. -/
def isr80hRegisterCommand (commandId : Int) (command : Isr80hCommand) (s : Idt) : Option Idt :=
  if commandId < 0 ∨ (maxIsr80hCommands : Int) ≤ commandId then none
  else if s.isr80hCommands commandId.toNat ≠ none then none
  else some { s with
    isr80hCommands := Function.update s.isr80hCommands commandId.toNat (some command) }

/-- The system calls in the order of `enum SystemCommands`. -/
def systemCommands : List Isr80hCommand :=
  [.command0Sum, .command1Print, .command2Getkey, .command3Putchar, .command4Malloc, .command5Free,
    .command6ProcessLoadStart, .command7InvokeSystemCommand, .command8GetProgramArguments,
    .command9Exit]

def isr80hRegisterCommands (s : Idt) : Option Idt :=
  systemCommands.zipIdx.foldlM (fun s x => isr80hRegisterCommand x.2 x.1 s) s

/-! ## Descriptors -/

section

variable {m : Memory} {base n i : ℕ} {x : UInt32} {s : Idt} {d : IdtDesc}

theorem toNat_half (y : UInt16) : y.toUInt8.toNat + (y >>> 8).toUInt8.toNat * 256 = y.toNat := by
  have hy := y.toNat_lt
  have hshift : (y >>> 8).toNat = y.toNat / 256 := by
    rw [UInt16.toNat_shiftRight, Nat.shiftRight_eq_div_pow]
    rfl
  rw [UInt16.toNat_toUInt8, UInt16.toNat_toUInt8, hshift]
  omega

/-- The two halves of an address. -/
theorem toNat_halves (x : UInt32) :
    (x &&& 0x0000ffff).toUInt16.toNat + (x >>> 16).toUInt16.toNat * 65536 = x.toNat := by
  have hx := x.toNat_lt
  have hshift : (x >>> 16).toNat = x.toNat / 65536 := by
    rw [UInt32.toNat_shiftRight, Nat.shiftRight_eq_div_pow]
    rfl
  have hlow : (x &&& 0x0000ffff).toNat = x.toNat % 65536 := by
    rw [UInt32.toNat_and]
    exact Nat.and_two_pow_sub_one_eq_mod _ 16
  rw [UInt32.toNat_toUInt16, UInt32.toNat_toUInt16, hshift, hlow]
  omega

/-- The bytes from `a` on are those of the descriptor. -/
def HoldsDesc (m : Memory) (a : ℕ) (d : IdtDesc) : Prop :=
  ∀ i b, d.bytes[i]? = some b → m (a + i) = b

/-- What the processor reads from a descriptor. -/
theorem HoldsDesc.gateAt {a : ℕ} (h : HoldsDesc m a d) : gateAt m a =
    ⟨d.offset1.toNat + d.offset2.toNat * 65536, d.selector.toNat, d.typeAttr⟩ := by
  have h₀ : m a = d.offset1.toUInt8 := h 0 _ rfl
  simp only [X86.gateAt, read16, Nat.add_assoc, h₀, h 1 _ rfl, h 2 _ rfl, h 3 _ rfl, h 5 _ rfl,
    h 6 _ rfl, h 7 _ rfl, toNat_half]

/-! ## The table -/

/-- The address that `idt_init` sets for the vector `n`. -/
def vectorAddress (interruptPointerTable : ℕ → UInt32) (idtZero isr80hWrapper : UInt32) (n : ℕ) :
    UInt32 :=
  if n = 0x80 then isr80hWrapper else if n = 0 then idtZero else interruptPointerTable n

/-- The descriptor that `idt_set` makes for `address`. -/
def descOf (address : UInt32) : IdtDesc :=
  ⟨(address &&& 0x0000ffff).toUInt16, kernelCodeSelector, 0x00, 0xEE, (address >>> 16).toUInt16⟩

theorem HoldsDesc.gateAt_descOf {a : ℕ} (h : HoldsDesc m a (descOf x)) :
    X86.gateAt m a = ⟨x.toNat, 8, 0xEE⟩ := by
  rw [h.gateAt, descOf, toNat_halves]
  rfl

/-- The loop over the pointer table, up to `n`. -/
theorem idtSet_range (table : ℕ → UInt32) (s : Idt) : ∀ n, (List.range n).foldl
    (fun s i => idtSet i (table i) s) s = { s with
      idtDescriptors := fun i => if i < n then descOf (table i) else s.idtDescriptors i }
  | 0 => by simp
  | n + 1 => by
    rw [List.range_succ, List.foldl_append, idtSet_range table s n, List.foldl_cons,
      List.foldl_nil, idtSet]
    congr 1
    funext i
    by_cases hi : i = n
    · subst hi
      rw [Function.update_self, if_pos (Nat.lt_succ_self i)]
      rfl
    · rw [Function.update_of_ne hi]
      simp only [show i < n + 1 ↔ i < n by omega]

/-- A vector within bounds gets its callback. -/
theorem idtRegisterInterruptCallback_lt (c : InterruptCallback) (s : Idt)
    (hn : n < totalInterrupts) : idtRegisterInterruptCallback n c s =
      (0, { s with interruptCallbacks := Function.update s.interruptCallbacks n (some c) }) := by
  rw [idtRegisterInterruptCallback, if_neg (by omega), Int.toNat_natCast]

/-- The loop over the exceptions, up to `n`. -/
theorem idtRegister_range (s : Idt) : ∀ n ≤ totalInterrupts, (List.range n).foldl
    (fun s (i : ℕ) => (idtRegisterInterruptCallback i .idtHandleException s).2) s = { s with
      interruptCallbacks := fun i =>
        if i < n then some .idtHandleException else s.interruptCallbacks i }
  | 0, _ => by simp
  | n + 1, hn => by
    rw [List.range_succ, List.foldl_append, idtRegister_range s n (by omega), List.foldl_cons,
      List.foldl_nil, idtRegisterInterruptCallback_lt _ _ hn]
    show Idt.mk _ _ _ _ = Idt.mk _ _ _ _
    congr 1
    funext i
    by_cases hi : i = n
    · subst hi
      rw [Function.update_self, if_pos (Nat.lt_succ_self i)]
    · rw [Function.update_of_ne hi]
      simp only [show i < n + 1 ↔ i < n by omega]

/-- All that `idt_init` leaves. -/
theorem idtInit_eq (table : ℕ → UInt32) (zero wrapper idtr : UInt32) (s : Idt) :
    (idtInit table zero wrapper idtr s).idtr = (4095, idtr) ∧
      (∀ n < totalInterrupts, (idtInit table zero wrapper idtr s).idtDescriptors n =
        descOf (vectorAddress table zero wrapper n)) ∧
      (∀ n, (idtInit table zero wrapper idtr s).interruptCallbacks n =
        if n = 0x20 then some .idtClock else if n < 0x20 then some .idtHandleException
        else s.interruptCallbacks n) ∧
      (idtInit table zero wrapper idtr s).isr80hCommands = s.isr80hCommands := by
  have hclock : ∀ s, idtRegisterInterruptCallback 0x20 .idtClock s = _ := fun s =>
    idtRegisterInterruptCallback_lt .idtClock s (show 0x20 < totalInterrupts by decide)
  simp only [idtInit, idtSet_range, idtRegister_range _ 0x20 (by decide), hclock]
  simp only [idtSet]
  refine ⟨rfl, fun n hn => ?_, fun n => ?_, trivial⟩
  · simp only [vectorAddress]
    by_cases h80 : n = 0x80
    · subst h80
      rw [Function.update_self, if_pos rfl]
      rfl
    · rw [Function.update_of_ne h80, if_neg h80]
      by_cases h0 : n = 0
      · subst h0
        rw [Function.update_self, if_pos rfl]
        rfl
      · rw [Function.update_of_ne h0, if_pos hn, if_neg h0]
  · show Function.update _ 32 _ n = _
    by_cases hn : n = 0x20
    · subst hn
      rw [Function.update_self, if_pos rfl]
    · rw [Function.update_of_ne hn, if_neg hn]

/-- The bytes from `base` on are the descriptors of `s`. -/
def HoldsIdt (m : Memory) (base : ℕ) (s : Idt) : Prop :=
  ∀ n < totalInterrupts, HoldsDesc m (base + 8 * n) (s.idtDescriptors n)

/-- What the processor is pointed at : the gates at `base`, and the stack in `tss`. -/
def kernelTables (m : Memory) (base : ℕ) : Tables where
  gate n := gateAt m (base + 8 * n)
  esp0 := 0x600000
  ss0 := 0x10

variable {table : ℕ → UInt32} {zero wrapper idtr : UInt32}

/-- The gate of each vector. -/
theorem idtInit_gate (hm : HoldsIdt m base (idtInit table zero wrapper idtr s))
    (hn : n < totalInterrupts) : (kernelTables m base).gate n =
      ⟨(vectorAddress table zero wrapper n).toNat, 8, 0xEE⟩ := by
  have h := hm n hn
  rw [(idtInit_eq table zero wrapper idtr s).2.1 n hn] at h
  exact h.gateAt_descOf

theorem idtInit_dpl (hm : HoldsIdt m base (idtInit table zero wrapper idtr s))
    (hn : n < totalInterrupts) : ((kernelTables m base).gate n).dpl = 3 := by
  rw [idtInit_gate hm hn]
  show (0xEE : UInt8).toNat / 32 % 4 = 3
  decide

/-- Where the processor looks for the gates after `lidt`. -/
def Idt.tableBase (s : Idt) : ℕ := s.idtr.2.toNat

/-- Every vector that the processor finds within the limit leads with the interrupts off to the
address that was set for it, in the code segment of the kernel, and may be raised by a program.
The routine of vector 0, which would call the handler of exceptions, is led to by none if it
differs from all others. -/
theorem idtInit_gates (hm : HoldsIdt m (idtInit table zero wrapper idtr s).tableBase
      (idtInit table zero wrapper idtr s)) :
    (∀ n, 8 * n + 7 ≤ (idtInit table zero wrapper idtr s).idtr.1.toNat →
      ((kernelTables m idtr.toNat).gate n).Interrupts ∧
      ((kernelTables m idtr.toNat).gate n).dpl = 3 ∧
      ((kernelTables m idtr.toNat).gate n).selector = 8 ∧
      ((kernelTables m idtr.toNat).gate n).offset = (vectorAddress table zero wrapper n).toNat ∧
      (n < 0x20 → (idtInit table zero wrapper idtr s).interruptCallbacks n =
        some .idtHandleException)) ∧
      (table 0 ≠ zero → table 0 ≠ wrapper →
        (∀ n < totalInterrupts, n ≠ 0 → table n ≠ table 0) →
        ∀ n < totalInterrupts, ((kernelTables m idtr.toNat).gate n).offset ≠ (table 0).toNat) := by
  obtain ⟨hlidt, -, hcallbacks, -⟩ := idtInit_eq table zero wrapper idtr s
  have hbase : (idtInit table zero wrapper idtr s).tableBase = idtr.toNat := by
    rw [Idt.tableBase, hlidt]
  rw [hbase] at hm
  refine ⟨fun n hn => ?_, fun hzero hwrapper htable n hn he => ?_⟩
  · rw [hlidt] at hn
    change 8 * n + 7 ≤ 4095 at hn
    have hlt : n < totalInterrupts := show n < 512 by omega
    have hdpl := idtInit_dpl hm hlt
    rw [idtInit_gate hm hlt] at hdpl ⊢
    refine ⟨show (0xEE : UInt8).toNat % 32 = 14 ∧ 128 ≤ (0xEE : UInt8).toNat by decide,
      hdpl, rfl, rfl, fun hexc => ?_⟩
    rw [hcallbacks, if_neg (by omega), if_pos hexc]
  · rw [idtInit_gate hm hn] at he
    have haddr : vectorAddress table zero wrapper n = table 0 := UInt32.toNat.inj he
    rw [vectorAddress] at haddr
    split_ifs at haddr with h80 h0
    · exact hwrapper haddr.symm
    · exact hzero haddr.symm
    · exact htable n hn h0 haddr

end

/-! ## The table of a kernel -/

/-- The descriptors of `s` from `base` on, and zeros. -/
def idtMemory (base : ℕ) (s : Idt) : Memory := fun a =>
  (s.idtDescriptors ((a - base) / 8)).bytes.getD ((a - base) % 8) 0

theorem idtMemory_holds (base : ℕ) (s : Idt) : HoldsIdt (idtMemory base s) base s := by
  intro n _ i b hi
  have hlen : i < 8 := (List.getElem?_eq_some_iff.mp hi).1
  rw [idtMemory, show (base + 8 * n + i - base) / 8 = n by omega,
    show (base + 8 * n + i - base) % 8 = i by omega, List.getD_eq_getElem?_getD, hi]
  rfl

/-- Routines of 32 bytes from 0x101000 on, and the other two behind them. -/
def stubTable (n : ℕ) : UInt32 := 0x101000 + 32 * UInt32.ofNat n

def stubIdt : Idt := idtInit stubTable 0x105000 0x105100 0x106000 .boot

/-- No two vectors share a routine. -/
theorem stubTable_ne {n : ℕ} (hn : n < totalInterrupts) (h0 : n ≠ 0) :
    stubTable n ≠ stubTable 0 := by
  intro h
  have hnat := congrArg UInt32.toNat h
  have hlt : n < 512 := hn
  simp only [stubTable, UInt32.toNat_add, UInt32.toNat_mul, UInt32.toNat_ofNat, UInt32.toNat_ofNat']
    at hnat
  omega

theorem idtInit_gates_stub : (∀ n ≤ 511,
    ((kernelTables (idtMemory 0x106000 stubIdt) 0x106000).gate n).dpl = 3) ∧
    ((kernelTables (idtMemory 0x106000 stubIdt) 0x106000).gate 0).offset = 0x105000 ∧
    ∀ n < 512, ((kernelTables (idtMemory 0x106000 stubIdt) 0x106000).gate n).offset ≠ 0x101000 := by
  have hlidt : stubIdt.idtr = (4095, 0x106000) := (idtInit_eq _ _ _ _ _).1
  have hm : HoldsIdt (idtMemory stubIdt.tableBase stubIdt) stubIdt.tableBase stubIdt :=
    idtMemory_holds _ stubIdt
  have hbase : stubIdt.tableBase = 0x106000 := by
    rw [Idt.tableBase, hlidt]
    rfl
  have hlimit : stubIdt.idtr.1.toNat = 4095 := by
    rw [hlidt]
    rfl
  obtain ⟨hgates, hnone⟩ := idtInit_gates hm
  rw [hbase] at hgates hnone
  refine ⟨fun n hn => (hgates n (hlimit ▸ by omega)).2.1, ?_, fun n hn => ?_⟩
  · exact (hgates 0 (hlimit ▸ by omega)).2.2.2.1.trans (by decide)
  · exact hnone (by decide) (by decide) (fun _ => stubTable_ne) n hn

end Hyperion
