import Hyperion.Idt
import Hyperion.ExitTurn
import Hyperion.Keyboard
import Hyperion.Printf
import Hyperion.ProgramArguments
import Hyperion.Terminal

/-!
# The handlers of interrupts and system calls

`interrupt_handler` and `isr80h_handler` of `idt.c`, with the driver of the keyboard and all the
system calls behind them. They work on the kernel, the screen, the tables of `idt.c` and the
state of caps lock.
-/

namespace Hyperion

open Partial

/-- The globals that the handlers use. -/
structure System where
  kernel : Kernel
  idt : Idt
  terminal : Terminal
  capslockState : Bool

abbrev SystemM := Prog System

/-- A function of the kernel. -/
def inKernel {α : Type} (m : KernelM α) : SystemM α := fun s =>
  (m s.kernel).map fun x => (x.1, { s with kernel := x.2 })

@[simp] theorem inKernel_meets {α : Type} {m : KernelM α} {s : System} {r : Prop}
    {Q : α → System → Prop} :
    Meets r (inKernel m) s Q ↔ Meets r m s.kernel fun a k => Q a { s with kernel := k } := by
  unfold Meets inKernel
  cases m s.kernel with
  | none => simp
  | some x =>
    refine ⟨fun h => ⟨fun a t e => ?_, by simp⟩, fun h => ⟨fun a t e => ?_, by simp⟩⟩
    · cases e
      exact h.1 _ _ rfl
    · cases e
      exact h.1 _ _ rfl

/-! ## `classic.c` -/

/-- `keyboard_scan_set_one`. -/
def keyboardScanSetOne : List UInt8 := [
  0x00, 0x1B, 49, 50, 51, 52, 53, -- 0x00 0x1B 1 2 3 4 5
  54, 55, 56, 57, 48, 45, 61, -- 6 7 8 9 0 - =
  0x08, 9, 81, 87, 69, 82, 84, -- 0x08 \t Q W E R T
  89, 85, 73, 79, 80, 91, 93, -- Y U I O P [ ]
  0x0d, 0x00, 65, 83, 68, 70, 71, -- 0x0d 0x00 A S D F G
  72, 74, 75, 76, 59, 39, 96, -- H J K L ; ' `
  0x00, 92, 90, 88, 67, 86, 66, -- 0x00 \ Z X C V B
  78, 77, 44, 46, 47, 0x00, 42, -- N M , . / 0x00 *
  0x00, 0x20, 0x00, 0x00, 0x00, 0x00,
  0x00, 0x00, 0x00, 0x00, 0x00, 0x00,
  0x00, 55, 56, 57, 45, 52, 53, -- 0x00 7 8 9 - 4 5
  54, 43, 49, 50, 51, 48, 46] -- 6 + 1 2 3 0 .

/-- The check lets the scancode behind the last one pass, for which a byte behind the table is
read. -/
def classicKeyboardScancodeToChar (capslockState : Bool) (scancode : UInt8) : Option UInt8 :=
  if keyboardScanSetOne.length < scancode.toNat then some 0
  else keyboardScanSetOne[scancode.toNat]?.map fun c =>
    if capslockState = false ∧ 65 ≤ c ∧ c ≤ 90 then c + 32 else c

/-- `task_page`. -/
def taskPage : KernelM Unit := do
  let k ← get
  taskSwitch k.currentTask

/-- `classic_keyboard_handle_interrupt` from the character of the key on. -/
def classicKeyboardPushKey (scancode : UInt8) : SystemM Unit := do
  let s ← get
  match classicKeyboardScancodeToChar s.capslockState scancode with
  | none => fault
  | some c =>
    if c ≠ 0 then inKernel (keyboardPush c)
    inKernel taskPage

/-- With the scancode that the keyboard has put at its port. -/
def classicKeyboardHandleInterrupt (scancode : UInt8) : SystemM Unit := do
  inKernel kernelPage
  if scancode &&& 0x80 ≠ 0 then return
  if scancode = 0x3A then modify fun s => { s with capslockState := !s.capslockState }
  classicKeyboardPushKey scancode

/-! ## `isr80h` -/

/-- `isr80h_command0_sum`. -/
def isr80hCommand0Sum : KernelM ℕ := do
  let k ← get
  let v2 ← taskGetStackItem k.currentTask 1
  let v1 ← taskGetStackItem k.currentTask 0
  return (v1 + v2) % 4294967296

/-- A `char` as a pointer : it is signed. -/
def charPtr (c : UInt8) : ℕ := if c < 0x80 then c.toNat else 0xFFFFFF00 + c.toNat

def isr80hCommand2Getkey : KernelM ℕ := do
  let c ← keyboardPop
  return charPtr c

def isr80hCommand3Putchar : SystemM ℕ := do
  let s ← get
  let c ← inKernel (taskGetStackItem s.kernel.currentTask 0)
  modify fun s => { s with terminal := terminalWritechar (UInt8.ofNat c) 15 s.terminal }
  return 0

/-- A command. Where nothing was copied `print` reads a buffer that nobody has written. -/
def Isr80hCommand.run (fuel : ℕ) (buf : LocalArray) : Isr80hCommand → SystemM CommandEnd
  | command0Sum => do return .returned (← inKernel isr80hCommand0Sum)
  | command1Print => do
    match ← inKernel (isr80hCommand1Print buf) with
    | none => fault
    | some str =>
      modify fun s => { s with terminal := print str s.terminal }
      return .returned 0
  | command2Getkey => do return .returned (← inKernel isr80hCommand2Getkey)
  | command3Putchar => do return .returned (← isr80hCommand3Putchar)
  | command4Malloc => do return .returned (← inKernel isr80hCommand4Malloc)
  | command5Free => do
    inKernel isr80hCommand5Free
    return .returned 0
  | command6ProcessLoadStart => inKernel isr80hCommand6ProcessLoadStart
  | command7InvokeSystemCommand => inKernel (isr80hCommand7InvokeSystemCommand fuel)
  | command8GetProgramArguments => do
    let _ ← inKernel isr80hCommand8GetProgramArguments
    return .returned 0
  | command9Exit => do return .entered (← inKernel isr80hCommand9Exit)

/-! ## `idt.c` -/

/-- `task_current_save_state`. -/
def taskCurrentSaveState (frame : InterruptFrame) : KernelM Unit := do
  let k ← get
  if k.currentTask = 0 then panic
  taskSaveState k.currentTask frame

/-- With `command` a word that is read as an `int`. -/
def isr80hHandleCommand (fuel : ℕ) (buf : LocalArray) (command : ℕ) : SystemM CommandEnd := do
  let s ← get
  if asSigned command < 0 ∨ (maxIsr80hCommands : Int) ≤ asSigned command then return .returned 0
  match s.idt.isr80hCommands (asSigned command).toNat with
  | none => return .returned 0
  | some commandFunc => commandFunc.run fuel buf

/-- `isr80h_handler` behind the command. `task_return` does not come back. -/
def isr80hReturn : CommandEnd → SystemM CommandEnd
  | .entered task => return .entered task
  | .returned value => do
    inKernel taskPage
    return .returned value

def isr80hHandler (fuel : ℕ) (buf : LocalArray) (command : ℕ) (frame : InterruptFrame) :
    SystemM CommandEnd := do
  inKernel kernelPage
  inKernel (taskCurrentSaveState frame)
  let res ← isr80hHandleCommand fuel buf command
  isr80hReturn res

/-- The callback of an interrupt, with the task that it leaves the kernel for. -/
def InterruptCallback.run (scancode : UInt8) : InterruptCallback → SystemM (Option ℕ)
  | idtHandleException => do return some (← inKernel Hyperion.idtHandleException)
  | idtClock => do return some (← inKernel Hyperion.idtClock)
  | classicKeyboardHandleInterrupt => do
    Hyperion.classicKeyboardHandleInterrupt scancode
    return none

def interruptHandler (scancode : UInt8) (interrupt : ℕ) (frame : InterruptFrame) :
    SystemM (Option ℕ) := do
  inKernel kernelPage
  let s ← get
  let left ← match s.idt.interruptCallbacks interrupt with
    | none => pure none
    | some callback => do
      inKernel (taskCurrentSaveState frame)
      callback.run scancode
  if left = none then inKernel taskPage
  return left

end Hyperion
