import Hyperion.KernelHeap
import Hyperion.Lib.RingQueue
import Hyperion.Lib.Trace

/-!
# The keyboard buffer

`keyboard.c` : the ring of a process that keys are pushed to and popped from. Whether a
key is waiting shows in the ring alone, a zero byte being an empty cell, and a push does
not look whether its cell is empty. As long as no push comes on a full ring the buffer is
a queue (`keyboard_run_fifo`). One that does overwrites the oldest key, and what is popped
after it is out of order or stuck (`keyboard_overrun_reorders`).

The counters are of type `int` and wrap, while the index into the ring is the remainder of the
unsigned number, which goes on over the wrap since 1024 divides `2 ^ 32`. `Holds` is the ring as a
queue : from the head on it holds the characters of `q`, with the tail behind them and zeros in the
other cells. `Holds.push` appends to the queue and `Holds.pop` takes its first character.

A key goes to the process that is the current one and is popped by the process of the current task.
The events of a run (`KeyEvent`) are those of one buffer, and everything else that leaves it alone.
`KeyInv` puts them together : behind what has been popped the ring holds what has been pushed.
-/

namespace Hyperion

open Partial

/-- `HARDIKHYPERIONOS_KEYBOARD_BUFFER_SIZE`. -/
abbrev keyboardBufferSize : ℕ := 1024

/-! ## `keyboard.c` -/

/-- `sizeof` is unsigned, and so is the remainder. -/
def keyboardGetTailIndex (keyboard : KeyboardBuffer) : ℕ :=
  asUnsigned keyboard.tail % keyboardBufferSize

/-- `buffer[i] = c`. -/
def KeyboardBuffer.setCell (keyboard : KeyboardBuffer) (i : ℕ) (c : UInt8) : KeyboardBuffer :=
  { keyboard with buffer := fun j => if j = i then c else keyboard.buffer j }

def keyboardPush (c : UInt8) : KernelM Unit := do
  let k ← get
  if k.currentProcess = 0 then return
  if c = 0 then return
  let process ← getProcess k.currentProcess
  let realIndex := keyboardGetTailIndex process.keyboard
  modifyProcess k.currentProcess fun p => { p with keyboard := p.keyboard.setCell realIndex c }
  modifyProcess k.currentProcess fun p =>
    { p with keyboard := { p.keyboard with tail := wrapInt (p.keyboard.tail + 1) } }

def keyboardPop : KernelM UInt8 := do
  let k ← get
  if k.currentTask = 0 then return 0
  let task ← getTask k.currentTask
  let process ← getProcess task.process
  let realIndex := asUnsigned process.keyboard.head % keyboardBufferSize
  let c := process.keyboard.buffer realIndex
  if c = 0 then return 0
  modifyProcess task.process fun p => { p with keyboard := p.keyboard.setCell realIndex 0 }
  modifyProcess task.process fun p =>
    { p with keyboard := { p.keyboard with head := wrapInt (p.keyboard.head + 1) } }
  return c

/-! ## What a push and a pop do to the buffer -/

namespace KeyboardBuffer

/-- The buffer after a push of `c`. -/
def push (b : KeyboardBuffer) (c : UInt8) : KeyboardBuffer :=
  { b.setCell (keyboardGetTailIndex b) c with tail := wrapInt (b.tail + 1) }

/-- The cell that the next pop looks at. -/
def headIndex (b : KeyboardBuffer) : ℕ := asUnsigned b.head % keyboardBufferSize

/-- The buffer after a pop. -/
def pop (b : KeyboardBuffer) : KeyboardBuffer :=
  if b.buffer b.headIndex = 0 then b
  else { b.setCell b.headIndex 0 with head := wrapInt (b.head + 1) }

/-- The buffer holds the queue `q` : from the head on, with the tail behind it. -/
structure Holds (b : KeyboardBuffer) (q : List UInt8) : Prop where
  ring : RingQueue keyboardBufferSize 0 b.buffer (asUnsigned b.head) q
  tail : keyboardGetTailIndex b = (asUnsigned b.head + q.length) % keyboardBufferSize

variable {b : KeyboardBuffer} {q : List UInt8} {c : UInt8}

theorem asUnsigned_wrapInt_succ (i : Int) :
    asUnsigned (wrapInt (i + 1)) % keyboardBufferSize =
      (asUnsigned i + 1) % keyboardBufferSize := by
  unfold wrapInt asSigned asUnsigned keyboardBufferSize
  omega

/-- On a ring that is not full a push appends to the queue. -/
theorem Holds.push (h : b.Holds q) (hq : q.length < keyboardBufferSize) (hc : c ≠ 0) :
    (b.push c).Holds (q ++ [c]) where
  ring := by
    have hring := h.ring.push hq hc
    rw [← h.tail] at hring
    exact hring
  tail := by
    have htail := h.tail
    unfold keyboardGetTailIndex at htail ⊢
    rw [KeyboardBuffer.push, asUnsigned_wrapInt_succ, Nat.add_mod, htail, List.length_append]
    simp [KeyboardBuffer.setCell, Nat.add_assoc]

/-- A pop takes the first character of the queue. -/
theorem Holds.pop (h : b.Holds (c :: q)) : b.buffer b.headIndex = c ∧ b.pop.Holds q := by
  have hc : b.buffer b.headIndex = c := h.ring.head_eq (by decide)
  have hc0 : c ≠ 0 := h.ring.full c List.mem_cons_self
  refine ⟨hc, ?_⟩
  rw [KeyboardBuffer.pop, hc, if_neg hc0]
  constructor
  · exact h.ring.pop.congr_head (asUnsigned_wrapInt_succ b.head)
  · have htail := h.tail
    have hhead := asUnsigned_wrapInt_succ b.head
    unfold keyboardGetTailIndex at htail ⊢
    simp only [KeyboardBuffer.setCell, List.length_cons, keyboardBufferSize] at htail hhead ⊢
    omega

/-- The cell at the head is empty exactly when the queue is. -/
theorem Holds.head_eq_zero (h : b.Holds q) : b.buffer b.headIndex = 0 ↔ q = [] :=
  h.ring.head_eq_empty (by decide)

/-- The cell at the tail is empty exactly when the ring is not full. -/
theorem Holds.tail_eq_zero (h : b.Holds q) :
    b.buffer (keyboardGetTailIndex b) = 0 ↔ q.length < keyboardBufferSize := by
  rw [h.tail]
  constructor
  · intro h0
    refine lt_of_le_of_ne h.ring.length fun hfull => ?_
    rw [hfull, Nat.add_mod_right] at h0
    have := h.head_eq_zero.mp h0
    rw [this] at hfull
    exact absurd hfull (by decide)
  · intro hlt
    rw [h.ring.cell _ hlt, List.getD_eq_default _ _ le_rfl]

/-- After a push of any character but NUL there is one to pop. -/
theorem Holds.push_head (h : b.Holds q) (hc : c ≠ 0) :
    (b.push c).buffer (b.push c).headIndex ≠ 0 := by
  show (if b.headIndex = keyboardGetTailIndex b then c else b.buffer b.headIndex) ≠ 0
  split_ifs with hi
  · exact hc
  · intro h0
    rw [h.head_eq_zero.mp h0] at h
    exact hi h.tail.symm

end KeyboardBuffer

/-! ## What the calls do -/

/-- The keyboard buffer of the process at `p`. -/
def Kernel.keyboard (k : Kernel) (p : ℕ) : Option KeyboardBuffer :=
  match k.store p with
  | some (.process process) => some process.keyboard
  | _ => none

/-- The current task is one of the process at `p`. -/
def Kernel.Pops (k : Kernel) (p : ℕ) : Prop :=
  k.currentTask ≠ 0 ∧ ∃ t, k.store k.currentTask = some (.task t) ∧ t.process = p

section Calls

variable {k k' : Kernel} {p : ℕ} {b : KeyboardBuffer} {c : UInt8} {r : Prop}

theorem Kernel.keyboard_eq_some : k.keyboard p = some b ↔
    ∃ process, k.store p = some (.process process) ∧ process.keyboard = b := by
  unfold Kernel.keyboard
  split
  · rename_i process hp
    simp [hp]
  · rename_i hno
    refine iff_of_false (by simp) ?_
    rintro ⟨process, hp, -⟩
    exact hno process hp

/-- A push writes the buffer of the current process and nothing else. -/
theorem keyboardPush_process {process : Process} (hp : p ≠ 0) (hcur : k.currentProcess = p)
    (hc : c ≠ 0) (hprocess : k.store p = some (.process process)) :
    Meets True (keyboardPush c) k fun _ k' =>
      k' = k.put p (.process { process with keyboard := process.keyboard.push c }) := by
  subst hcur
  simp only [keyboardPush, Meets.bind_iff, Meets.get_iff, Meets.ite_iff]
  refine ⟨fun h => absurd h hp, fun _ => ⟨fun h => absurd h hc, fun _ => ?_⟩⟩
  rw [Kernel.getProcess_meets hp hprocess, Kernel.modifyProcess_meets hp hprocess,
    Kernel.modifyProcess_meets hp (Kernel.put_store_self _ _ _), Kernel.put_put]
  rfl

theorem keyboardPush_meets (hp : p ≠ 0) (hcur : k.currentProcess = p) (hc : c ≠ 0)
    (hb : k.keyboard p = some b) :
    Meets True (keyboardPush c) k fun _ k' => k'.keyboard p = some (b.push c) := by
  obtain ⟨process, hprocess, rfl⟩ := Kernel.keyboard_eq_some.mp hb
  refine (keyboardPush_process hp hcur hc hprocess).mono ?_
  rintro - k' rfl
  exact Kernel.keyboard_eq_some.mpr ⟨_, Kernel.put_store_self _ _ _, rfl⟩

/-- A pop writes the buffer of the process of the current task and nothing else. -/
theorem keyboardPop_process {process : Process} (hp : p ≠ 0) (hpops : k.Pops p)
    (hprocess : k.store p = some (.process process)) :
    Meets True keyboardPop k fun c k' =>
      c = process.keyboard.buffer process.keyboard.headIndex ∧
      (k' = k ∧ process.keyboard.pop = process.keyboard ∨
        k' = k.put p (.process { process with keyboard := process.keyboard.pop })) := by
  obtain ⟨hcur, t, ht, rfl⟩ := hpops
  simp only [keyboardPop, Meets.bind_iff, Meets.get_iff, Meets.ite_iff]
  refine ⟨fun h => absurd h hcur, fun _ => ?_⟩
  rw [Kernel.getTask_meets hcur ht, Kernel.getProcess_meets hp hprocess]
  refine ⟨fun h0 => Meets.pure_iff.mpr ⟨h0.symm, .inl ⟨rfl, if_pos h0⟩⟩, fun h0 => ?_⟩
  rw [Kernel.modifyProcess_meets hp hprocess,
    Kernel.modifyProcess_meets hp (Kernel.put_store_self _ _ _), Kernel.put_put]
  refine Meets.pure_iff.mpr ⟨rfl, .inr ?_⟩
  rw [KeyboardBuffer.pop, KeyboardBuffer.headIndex, if_neg h0]
  rfl

theorem keyboardPop_meets (hp : p ≠ 0) (hpops : k.Pops p) (hb : k.keyboard p = some b) :
    Meets True keyboardPop k fun c k' =>
      c = b.buffer b.headIndex ∧ k'.keyboard p = some b.pop := by
  obtain ⟨process, hprocess, rfl⟩ := Kernel.keyboard_eq_some.mp hb
  refine (keyboardPop_process hp hpops hprocess).mono ?_
  rintro c k' ⟨hc, ⟨rfl, hpop⟩ | rfl⟩
  · exact ⟨hc, by rw [hpop]; exact hb⟩
  · exact ⟨hc, Kernel.keyboard_eq_some.mpr ⟨_, Kernel.put_store_self _ _ _, rfl⟩⟩

end Calls

/-! ## Runs -/

/-- What happens to the buffer of one process. -/
inductive KeyEvent
  | push (c : UInt8)
  | pop (c : UInt8)
  | other

/-- A key that is not NUL is pushed while the process at `p` is the current one, a task of it
pops, or something happens that leaves its buffer alone. -/
inductive KeyStep (p : ℕ) : Kernel → KeyEvent → Kernel → Prop
  | push {k k' : Kernel} {c : UInt8} :
      k.currentProcess = p → c ≠ 0 → keyboardPush c k = some ((), k') → KeyStep p k (.push c) k'
  | pop {k k' : Kernel} {c : UInt8} :
      k.Pops p → keyboardPop k = some (c, k') → KeyStep p k (.pop c) k'
  | other {k k' : Kernel} : k'.keyboard p = k.keyboard p → KeyStep p k .other k'

/-- A run on the buffer of one process. -/
abbrev KeyRun := List (Kernel × KeyEvent × Kernel)

/-- What an event adds to the characters pushed. -/
def KeyEvent.pushed : KeyEvent → List UInt8
  | .push c => [c]
  | _ => []

/-- What an event adds to the characters popped. -/
def KeyEvent.popped : KeyEvent → List UInt8
  | .pop c => if c = 0 then [] else [c]
  | _ => []

/-- The characters pushed, in order. -/
def pushed (tr : KeyRun) : List UInt8 := tr.flatMap fun x => x.2.1.pushed

/-- The characters popped, in order. -/
def popped (tr : KeyRun) : List UInt8 := tr.flatMap fun x => x.2.1.popped

/-- The process at `p` has an empty buffer, its counters at the same place. -/
def Kernel.KeysCleared (k : Kernel) (p : ℕ) : Prop :=
  ∃ b, k.keyboard p = some b ∧ (∀ i, b.buffer i = 0) ∧ b.tail = b.head

/-- At most a full ring of characters is unread at any moment of the run. -/
def UnreadFits (tr : KeyRun) : Prop :=
  ∀ tr₁ tr₂, tr = tr₁ ++ tr₂ → (pushed tr₁).length ≤ (popped tr₁).length + keyboardBufferSize

/-- The run is one of a queue : what has been popped is what was pushed first, and a pop
answers 0 exactly when nothing is left. -/
def Fifo (tr : KeyRun) : Prop :=
  popped tr <+: pushed tr ∧ ∀ tr₁ tr₂ k k' c, tr = tr₁ ++ (k, .pop c, k') :: tr₂ →
    (c = 0 ↔ popped tr₁ = pushed tr₁)

/-- The cell that a pushed character goes to is empty. -/
def TailFree (p : ℕ) (k : Kernel) : KeyEvent → Prop
  | .push _ => ∀ b, k.keyboard p = some b → b.buffer (keyboardGetTailIndex b) = 0
  | _ => True

/-- The buffer holds a queue that, behind what has been popped, is what has been pushed. -/
def KeyInv (p : ℕ) (pre : KeyRun) (k : Kernel) : Prop :=
  ∃ b q, k.keyboard p = some b ∧ b.Holds q ∧ popped pre ++ q = pushed pre

theorem pushed_append (tr tr' : KeyRun) : pushed (tr ++ tr') = pushed tr ++ pushed tr' :=
  List.flatMap_append

theorem popped_append (tr tr' : KeyRun) : popped (tr ++ tr') = popped tr ++ popped tr' :=
  List.flatMap_append

theorem pushed_concat (tr : KeyRun) (k : Kernel) (e : KeyEvent) (k' : Kernel) :
    pushed (tr ++ [(k, e, k')]) = pushed tr ++ e.pushed := by simp [pushed]

theorem popped_concat (tr : KeyRun) (k : Kernel) (e : KeyEvent) (k' : Kernel) :
    popped (tr ++ [(k, e, k')]) = popped tr ++ e.popped := by simp [popped]

section Runs

variable {p : ℕ} {k k' u : Kernel} {pre tr : KeyRun} {e : KeyEvent}

theorem Kernel.KeysCleared.inv (h : k.KeysCleared p) : KeyInv p [] k := by
  obtain ⟨b, hb, hzero, htail⟩ := h
  refine ⟨b, [], hb, ⟨.nil (fun i _ => hzero i) _, ?_⟩, rfl⟩
  rw [keyboardGetTailIndex, htail, List.length_nil, Nat.add_zero]

/-- A step that does not push on a full ring keeps the invariant. -/
theorem KeyInv.step (hp : p ≠ 0) (hi : KeyInv p pre k) (hs : KeyStep p k e k')
    (hfree : TailFree p k e) : KeyInv p (pre ++ [(k, e, k')]) k' := by
  obtain ⟨b, q, hb, hq, hpre⟩ := hi
  unfold KeyInv
  rw [pushed_concat, popped_concat]
  cases hs with
  | push hcur hc he =>
    rename_i c
    have hroom := hq.tail_eq_zero.mp (hfree b hb)
    refine ⟨b.push c, q ++ [c], (keyboardPush_meets hp hcur hc hb).of_eq he, hq.push hroom hc, ?_⟩
    simp [KeyEvent.pushed, KeyEvent.popped, ← hpre]
  | pop hpops he =>
    rename_i c
    obtain ⟨hc, hb'⟩ := (keyboardPop_meets hp hpops hb).of_eq he
    cases q with
    | nil =>
      have h0 := hq.head_eq_zero.mpr rfl
      have hpop : b.pop = b := if_pos h0
      refine ⟨b, [], by rw [hb', hpop], hq, ?_⟩
      simp [KeyEvent.pushed, KeyEvent.popped, ← hpre, hc, h0]
    | cons d q =>
      obtain ⟨hd, hq'⟩ := hq.pop
      have hd0 : d ≠ 0 := hq.ring.full d List.mem_cons_self
      refine ⟨b.pop, q, hb', hq', ?_⟩
      simp [KeyEvent.pushed, KeyEvent.popped, ← hpre, hc, hd, hd0]
  | other hsame =>
    refine ⟨b, q, hsame.trans hb, hq, ?_⟩
    simpa [KeyEvent.pushed, KeyEvent.popped] using hpre

/-- The popped characters are the first ones of those pushed. -/
theorem KeyInv.popped_pushed (hi : KeyInv p pre k) : popped pre <+: pushed pre := by
  obtain ⟨b, q, -, -, hpre⟩ := hi
  exact ⟨q, hpre⟩

/-- A pop answers 0 exactly when everything has been popped. -/
theorem KeyInv.pop_eq_zero (hp : p ≠ 0) (hi : KeyInv p pre k) {c : UInt8} (hpops : k.Pops p)
    (he : keyboardPop k = some (c, k')) : c = 0 ↔ popped pre = pushed pre := by
  obtain ⟨b, q, hb, hq, hpre⟩ := hi
  obtain ⟨hc, -⟩ := (keyboardPop_meets hp hpops hb).of_eq he
  rw [hc, hq.head_eq_zero, ← hpre]
  simp

/-- What is unread is what the ring holds, so a push finds a free cell while it is not full. -/
theorem KeyInv.tailFree (hi : KeyInv p pre k)
    (hunread : (pushed (pre ++ [(k, e, k')])).length ≤
      (popped (pre ++ [(k, e, k')])).length + keyboardBufferSize) : TailFree p k e := by
  obtain ⟨b, q, hb, hq, hpre⟩ := hi
  cases e with
  | push c =>
    intro b' hb'
    obtain rfl := Option.some.inj (hb'.symm.trans hb)
    refine hq.tail_eq_zero.mpr ?_
    rw [pushed_concat, popped_concat, ← hpre] at hunread
    simp only [KeyEvent.pushed, KeyEvent.popped, List.length_append, List.length_cons,
      List.length_nil] at hunread
    omega
  | pop c => trivial
  | other => trivial

/-- A run none of whose pushes comes on a full ring keeps the invariant. -/
theorem KeyInv.run (hp : p ≠ 0) (hk : k.KeysCleared p) (h : Trace (KeyStep p) k tr u)
    (hfree : ∀ x ∈ tr, TailFree p x.1 x.2.1) : KeyInv p tr u := by
  refine (h.history (I := KeyInv p) [] hk.inv ?_).1
  intro tr₁ s l t tr₂ htr hs hi
  exact hi.step hp hs (hfree (s, l, t) (by simp [htr]))

end Runs

/-! ## One process typing and reading -/

/-- A process with the buffer `b`. -/
def typing (b : KeyboardBuffer) : Process := { Process.zero with task := 12288, keyboard := b }

/-- It is the current process, and its task the current task. -/
def keyboardKernel (b : KeyboardBuffer) : Kernel :=
  { Kernel.empty with
    store := fun a =>
      if a = 8192 then some (.process (typing b))
      else if a = 12288 then some (.task ⟨0, ⟨0, 0, 0, 0, 0, 0, 0, 0, 0, 0, 0, 0⟩, 8192, 0, 0⟩)
      else none
    currentProcess := 8192
    currentTask := 12288 }

section Example

variable {b b' : KeyboardBuffer} {q : List UInt8} {c : UInt8}

theorem keyboardKernel_pops : (keyboardKernel b).Pops 8192 := by
  refine ⟨by simp [keyboardKernel], ⟨0, ⟨0, 0, 0, 0, 0, 0, 0, 0, 0, 0, 0, 0⟩, 8192, 0, 0⟩, ?_, rfl⟩
  simp [keyboardKernel]

theorem keyboardKernel_store : (keyboardKernel b).store 8192 = some (.process (typing b)) := by
  simp [keyboardKernel]

theorem keyboardKernel_cleared : (keyboardKernel ⟨fun _ => 0, 0, 0⟩).KeysCleared 8192 :=
  ⟨_, Kernel.keyboard_eq_some.mpr ⟨_, keyboardKernel_store, rfl⟩, fun _ => rfl, rfl⟩

theorem keyboardKernel_put :
    (keyboardKernel b).put 8192 (.process (typing b')) = keyboardKernel b' := by
  simp only [keyboardKernel, Kernel.put, Kernel.mk.injEq, and_true, true_and]
  funext a
  by_cases ha : a = 8192 <;> simp [ha]

theorem keyboardKernel_push (hc : c ≠ 0) :
    KeyStep 8192 (keyboardKernel b) (.push c) (keyboardKernel (b.push c)) := by
  have h := keyboardPush_process (p := 8192) (by decide) rfl hc (keyboardKernel_store (b := b))
  obtain ⟨_, k', he, hk'⟩ := h.exists_result
  exact .push rfl hc (he.trans (congrArg (fun k => some ((), k)) (hk'.trans keyboardKernel_put)))

theorem keyboardKernel_pop :
    KeyStep 8192 (keyboardKernel b) (.pop (b.buffer b.headIndex)) (keyboardKernel b.pop) := by
  have h := keyboardPop_process (by decide) keyboardKernel_pops (keyboardKernel_store (b := b))
  obtain ⟨c, k', he, rfl, hk'⟩ := h.exists_result
  rcases hk' with ⟨rfl, hpop⟩ | rfl
  · have hpop : b.pop = b := hpop
    rw [hpop]
    exact .pop keyboardKernel_pops he
  · exact .pop keyboardKernel_pops (he.trans (congrArg (fun k => some (_, k)) keyboardKernel_put))

/-- Pushing `n` times the same key into a ring with room for them. -/
theorem keyboardKernel_pushes (hc : c ≠ 0) : ∀ (n : ℕ) (b : KeyboardBuffer) (q : List UInt8),
    b.Holds q → q.length + n ≤ keyboardBufferSize →
    ∃ tr b', b'.Holds (q ++ List.replicate n c) ∧ b'.head = b.head ∧
      Trace (KeyStep 8192) (keyboardKernel b) tr (keyboardKernel b') ∧
      pushed tr = List.replicate n c ∧ popped tr = []
  | 0, b, q, hb, _ => ⟨[], b, by simpa using hb, rfl, .nil _, rfl, rfl⟩
  | n + 1, b, q, hb, hn => by
    have hb' := hb.push (c := c) (by omega) hc
    obtain ⟨tr, b', hq, hhead, htr, hpush, hpop⟩ := keyboardKernel_pushes hc n _ _ hb'
      (by rw [List.length_append, List.length_singleton]; omega)
    refine ⟨(_, .push c, _) :: tr, b', ?_, hhead, .cons (keyboardKernel_push hc) htr, ?_, ?_⟩
    · simpa [List.replicate_succ] using hq
    · simpa [pushed, KeyEvent.pushed, List.replicate_succ] using hpush
    · simpa [popped, KeyEvent.popped] using hpop

/-- The ring in which nothing has been typed. -/
def emptyRing : KeyboardBuffer := ⟨fun _ => 0, 0, 0⟩

/-- Two keys typed and one read, and another one typed before the rest is read. -/
def typedAndRead : KeyRun :=
  let b₁ := emptyRing.push 65
  let b₂ := b₁.push 66
  let b₃ := b₂.pop
  let b₄ := b₃.push 67
  let b₅ := b₄.pop
  [(keyboardKernel emptyRing, .push 65, keyboardKernel b₁),
   (keyboardKernel b₁, .push 66, keyboardKernel b₂),
   (keyboardKernel b₂, .pop 65, keyboardKernel b₃),
   (keyboardKernel b₃, .push 67, keyboardKernel b₄),
   (keyboardKernel b₄, .pop 66, keyboardKernel b₅),
   (keyboardKernel b₅, .pop 67, keyboardKernel b₅.pop)]

theorem typedAndRead_trace : ∃ b,
    Trace (KeyStep 8192) (keyboardKernel emptyRing) typedAndRead (keyboardKernel b) := by
  refine ⟨((((emptyRing.push 65).push 66).pop.push 67).pop).pop, ?_⟩
  refine .cons (keyboardKernel_push (by decide)) ?_
  refine .cons (keyboardKernel_push (by decide)) ?_
  refine .cons keyboardKernel_pop ?_
  refine .cons (keyboardKernel_push (by decide)) ?_
  exact .cons keyboardKernel_pop (.cons keyboardKernel_pop (.nil _))

end Example

/-! ## The buffer over a whole run -/

section Main

variable {p : ℕ} {k u : Kernel} {tr : KeyRun}

/-- The buffer of a process is a first-in first-out queue of up to 1024 characters. -/
theorem keyboard_run_fifo (hp : p ≠ 0) (hk : k.KeysCleared p) (h : Trace (KeyStep p) k tr u)
    (hunread : UnreadFits tr) : Fifo tr := by
  have hinv := h.history (I := KeyInv p) [] hk.inv fun tr₁ s l t tr₂ htr hs hi => by
    have hlen := hunread (tr₁ ++ [(s, l, t)]) tr₂ (by simp [htr])
    exact hi.step hp hs (hi.tailFree hlen)
  refine ⟨hinv.1.popped_pushed, fun tr₁ tr₂ s s' c htr => ?_⟩
  have hs := h.step_of_mem (s, .pop c, s') (by simp [htr])
  cases hs with
  | pop hpops he => exact (hinv.2 tr₁ _ tr₂ htr).pop_eq_zero hp hpops he

theorem keyboard_run_fifo_single : pushed typedAndRead = [65, 66, 67] ∧ Fifo typedAndRead := by
  obtain ⟨b, htrace⟩ := typedAndRead_trace
  refine ⟨rfl, keyboard_run_fifo (by decide) keyboardKernel_cleared htrace ?_⟩
  intro tr₁ tr₂ htr
  have hlen : (pushed tr₁ ++ pushed tr₂).length = 3 := by
    rw [pushed, pushed, ← List.flatMap_append, ← htr]
    rfl
  rw [List.length_append] at hlen
  unfold keyboardBufferSize
  omega

/-- As long as no push comes on a full ring what is popped is a part of what was pushed, in
order, and after one more push there is a character to pop. -/
theorem keyboard_run_sublist (hp : p ≠ 0) (hk : k.KeysCleared p) (h : Trace (KeyStep p) k tr u)
    (hfree : ∀ x ∈ tr, TailFree p x.1 x.2.1) :
    (popped tr).Sublist (pushed tr) ∧
      ∀ (c c' : UInt8) (v v' w : Kernel), u.currentProcess = p → c ≠ 0 →
        keyboardPush c u = some ((), v) → v'.keyboard p = v.keyboard p → v'.Pops p →
        keyboardPop v' = some (c', w) → c' ≠ 0 := by
  have hinv := KeyInv.run hp hk h hfree
  refine ⟨hinv.popped_pushed.sublist, fun c c' v v' w hcur hc hv hsame hpops he => ?_⟩
  obtain ⟨b, q, hb, hq, -⟩ := hinv
  have hv' := (keyboardPush_meets hp hcur hc hb).of_eq hv
  obtain ⟨rfl, -⟩ := (keyboardPop_meets hp hpops (hsame.trans hv')).of_eq he
  exact hq.push_head hc

theorem keyboard_run_sublist_single : (popped typedAndRead).Sublist (pushed typedAndRead) := by
  obtain ⟨b, htrace⟩ := typedAndRead_trace
  refine (keyboard_run_sublist (by decide) keyboardKernel_cleared htrace ?_).1
  have hfree {b : KeyboardBuffer} {c : UInt8} (h : b.buffer (keyboardGetTailIndex b) = 0) :
      TailFree 8192 (keyboardKernel b) (.push c) := by
    rintro b' hb
    rw [Kernel.keyboard_eq_some.mpr ⟨_, keyboardKernel_store, rfl⟩] at hb
    obtain rfl := Option.some.inj hb
    exact h
  intro x hx
  simp only [typedAndRead, List.mem_cons, List.not_mem_nil, or_false] at hx
  rcases hx with rfl | rfl | rfl | rfl | rfl | rfl
  · exact hfree rfl
  · exact hfree rfl
  · trivial
  · exact hfree rfl
  · trivial
  · trivial

/-- The key that is typed when the ring is full takes the place of the oldest one, and is
read before all the others. -/
theorem keyboard_overrun_reorders : ∃ tr u,
    Trace (KeyStep 8192) (keyboardKernel ⟨fun _ => 0, 0, 0⟩) tr u ∧
      ¬(popped tr).Sublist (pushed tr) := by
  have h0 : KeyboardBuffer.Holds ⟨fun _ => 0, 0, 0⟩ [] :=
    ⟨.nil (fun _ _ => rfl) _, rfl⟩
  obtain ⟨tr, b, hq, hhead, htr, hpush, hpop⟩ :=
    keyboardKernel_pushes (c := 1) (by decide) 1024 _ _ h0 (by decide)
  have htail : keyboardGetTailIndex b = 0 := by
    rw [hq.tail, hhead, List.nil_append, List.length_replicate]
    rfl
  have hcell : b.buffer 1 = 1 := by
    have := hq.ring.cell 1 (by decide)
    rw [hhead] at this
    exact this
  have hfirst : (b.push 2).buffer (b.push 2).headIndex = 2 := by
    show (if asUnsigned b.head % keyboardBufferSize = keyboardGetTailIndex b then 2 else _) = _
    rw [hhead, htail]
    rfl
  have hsecond : (b.push 2).pop.buffer (b.push 2).pop.headIndex = 1 := by
    have hi : (b.push 2).pop.headIndex = 1 := by
      rw [KeyboardBuffer.pop, hfirst, if_neg (by decide)]
      show asUnsigned (wrapInt (b.head + 1)) % _ = 1
      rw [hhead]
      rfl
    rw [hi, KeyboardBuffer.pop, hfirst, if_neg (by decide)]
    show (if 1 = asUnsigned b.head % _ then 0 else
      if 1 = keyboardGetTailIndex b then 2 else b.buffer 1) = 1
    rw [hhead, htail]
    exact hcell
  have hreads := Trace.cons (keyboardKernel_push (b := b) (c := 2) (by decide))
    (.cons keyboardKernel_pop (.cons keyboardKernel_pop (.nil _)))
  rw [hfirst, hsecond] at hreads
  refine ⟨_, _, htr.append hreads, fun hsub => ?_⟩
  rw [pushed_append, popped_append, hpush, hpop] at hsub
  have hsub : [2, 1].Sublist (List.replicate 1024 (1 : UInt8) ++ [2]) := hsub
  obtain ⟨l₁, l₂, hl, h₁, h₂⟩ := List.sublist_append_iff.mp hsub
  cases l₁ with
  | nil =>
    rw [List.nil_append] at hl
    subst hl
    exact absurd h₂.length_le (by decide)
  | cons c l₁ =>
    obtain ⟨rfl, -⟩ := List.cons.inj hl
    exact absurd (List.eq_of_mem_replicate (h₁.subset List.mem_cons_self)) (by decide)

end Main

end Hyperion
