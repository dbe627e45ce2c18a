import Hyperion.Isr80h

/-!
# Typing

The driver of the keyboard over runs of the whole system. Each key that is pressed gives the
character of `keyboard_scan_set_one`, a letter in lower case unless caps lock has been pressed an
odd number of times (`capslock_parity`), to the process that is the current one at that moment.
Every process reads what was typed for it, in order (`typing_fifo`), as long as at most a full ring
is unread (`TypedFits`).

`classicKeyboard_meets` is the driver by itself : it pushes the character of the key, if it has
one, and a release of a key has none. The bound that is checked lets one scancode through that is
behind the table, `0` of the keypad, so that this key has no result here
(`classicKeyboardScancodeToChar_none_iff`).

The events of a run (`TypingEvent`) are interrupts of the keyboard, whoever is interrupted, calls
of `getkey` by any process, and whatever else leaves caps lock and the buffers alone. `TypingInv`
says that the ring of the process holds what was typed for it behind what it has read. A push and a
pop leave the buffers of the other processes as they were (`keyboardPush_other`,
`keyboardPop_other`), so that the steps of other processes keep it.
-/

namespace Hyperion

open Partial

/-! ## What is typed -/

/-- The state of caps lock after a scancode. -/
def capslockAfter (capslockState : Bool) (scancode : UInt8) : Bool :=
  if scancode = 0x3A then !capslockState else capslockState

/-- The character that a scancode types. -/
def typedChar (capslockState : Bool) (scancode : UInt8) : Option UInt8 :=
  if scancode &&& 0x80 ≠ 0 then none
  else
    (classicKeyboardScancodeToChar (capslockAfter capslockState scancode) scancode).filter (· ≠ 0)

/-- What is typed for the process at `p`. A key comes with the process that is the current one
when it is pressed. -/
def typedFor (p : ℕ) : Bool → List (ℕ × UInt8) → List UInt8
  | _, [] => []
  | capslockState, (process, scancode) :: keys =>
    (if process = p then (typedChar capslockState scancode).toList else []) ++
      typedFor p (capslockAfter capslockState scancode) keys

variable {p : ℕ} {capslockState : Bool} {scancode c : UInt8}

theorem typedFor_append : ∀ (keys keys' : List (ℕ × UInt8)) (capslockState : Bool),
    typedFor p capslockState (keys ++ keys') = typedFor p capslockState keys ++
      typedFor p (keys.foldl (fun b key => capslockAfter b key.2) capslockState) keys'
  | [], _, _ => rfl
  | (process, scancode) :: keys, keys', capslockState => by
    rw [List.cons_append, typedFor, typedFor_append keys keys', typedFor, List.append_assoc]
    rfl

/-- Caps lock is on after an odd number of presses. -/
theorem capslock_parity : ∀ (keys : List (ℕ × UInt8)) (capslockState : Bool),
    keys.foldl (fun b key => capslockAfter b key.2) capslockState =
      (capslockState ^^ decide ((keys.map Prod.snd).count 0x3A % 2 = 1))
  | [], capslockState => by simp
  | (process, scancode) :: keys, capslockState => by
    rw [List.foldl_cons, capslock_parity keys, List.map_cons, List.count_cons, capslockAfter]
    by_cases h : scancode = 0x3A
    · subst h
      rcases Nat.mod_two_eq_zero_or_one ((keys.map Prod.snd).count 0x3A) with h | h <;>
        simp [Nat.add_mod, h]
    · simp [h]

/-- `Hi` is typed with caps lock on for the first letter. -/
example : typedFor 1 false [(1, 0x3A), (1, 0xBA), (1, 35), (2, 35), (1, 0x3A), (1, 23)] =
    [72, 105] := by decide

/-- The only key that is read from behind the table is `0` of the keypad. -/
theorem classicKeyboardScancodeToChar_none_iff :
    classicKeyboardScancodeToChar capslockState scancode = none ↔ scancode = 82 := by
  have hlen : keyboardScanSetOne.length = 82 := rfl
  unfold classicKeyboardScancodeToChar
  rw [hlen]
  split_ifs with h
  · refine iff_of_false (by simp) ?_
    rintro rfl
    exact absurd h (by decide)
  · rw [Option.map_eq_none_iff, List.getElem?_eq_none_iff, hlen, ← UInt8.toNat_inj]
    show _ ↔ _ = 82
    omega

/-- A character that is typed is not NUL. -/
theorem typedChar_ne_zero (h : typedChar capslockState scancode = some c) : c ≠ 0 := by
  unfold typedChar at h
  split_ifs at h
  simpa using (Option.filter_eq_some_iff.mp h).2

/-! ## What the handlers leave alone -/

/-- What the keyboard's functions see is the same. -/
structure SameKeys (k k' : Kernel) : Prop where
  keyboard : ∀ p, k'.keyboard p = k.keyboard p
  process : k'.currentProcess = k.currentProcess
  pops : ∀ p, k'.Pops p ↔ k.Pops p

namespace SameKeys

variable {k k₁ k' : Kernel}

theorem refl (k : Kernel) : SameKeys k k := ⟨fun _ => rfl, rfl, fun _ => Iff.rfl⟩

theorem trans (h : SameKeys k k₁) (h' : SameKeys k₁ k') : SameKeys k k' :=
  ⟨fun p => (h'.keyboard p).trans (h.keyboard p), h'.process.trans h.process,
    fun p => (h'.pops p).trans (h.pops p)⟩

/-- Another directory. -/
theorem withDirectory (k : Kernel) (d : ℕ) : SameKeys k { k with currentDirectory := d } :=
  ⟨fun _ => rfl, rfl, fun _ => Iff.rfl⟩

/-- Other registers of a task. -/
theorem put {a : ℕ} {t t' : Task} (h : k.store a = some (.task t)) (ht : t'.process = t.process) :
    SameKeys k (k.put a (.task t')) := by
  have hstore {q : ℕ} (hq : q ≠ a) : (k.put a (.task t')).store q = k.store q := if_neg hq
  have hself : (k.put a (.task t')).store a = some (.task t') := if_pos rfl
  refine ⟨fun p => ?_, rfl, fun p => and_congr_right fun _ => ?_⟩
  · unfold Kernel.keyboard
    by_cases hp : p = a
    · rw [hp, hself, h]
    · rw [hstore hp]
  · show (∃ t₁, (k.put a (.task t')).store k.currentTask = _ ∧ _) ↔ _
    by_cases ha : k.currentTask = a
    · rw [ha, hself, h]
      simp [ht]
    · rw [hstore ha]

end SameKeys

theorem kernelPage_sameKeys : Stays SameKeys kernelPage := by
  rintro k u k' h
  refine (show Meets False kernelPage k fun _ k' => SameKeys k k' from ?_).of_eq h
  rw [kernelPage, Meets.bind_iff, Meets.get_iff, pagingSwitch, Meets.bind_iff]
  exact Kernel.getChunk_rule fun d _ _ => Meets.modify_iff.mpr (.withDirectory k d)

theorem taskPage_sameKeys : Stays SameKeys taskPage := by
  rintro k u k' h
  refine (show Meets False taskPage k fun _ k' => SameKeys k k' from ?_).of_eq h
  rw [taskPage, Meets.bind_iff, Meets.get_iff]
  refine taskSwitch_meets.mono ?_
  rintro - _ ⟨d, rfl⟩
  exact .withDirectory k d

theorem taskCurrentSaveState_sameKeys (frame : InterruptFrame) :
    Stays SameKeys (taskCurrentSaveState frame) := by
  rintro k u k' h
  refine (show Meets False (taskCurrentSaveState frame) k fun _ k' => SameKeys k k' from ?_).of_eq h
  simp only [taskCurrentSaveState, Meets.bind_iff, Meets.get_iff, Meets.ite_iff, panic,
    Meets.fault_iff]
  refine ⟨fun _ => not_false, fun _ => ?_⟩
  rw [taskSaveState, modifyTask, Meets.bind_iff]
  refine Kernel.getTask_rule fun t h0 ht => ?_
  rw [Kernel.putObj_meets, if_neg h0]
  exact .put ht rfl

/-! ## What a key and a call do -/

variable {k : Kernel} {b : KeyboardBuffer} {q : ℕ}

/-- A push leaves the buffers of the other processes. -/
theorem keyboardPush_other (hne : k.currentProcess ≠ p) :
    Meets False (keyboardPush c) k fun _ k' => k'.keyboard p = k.keyboard p := by
  simp only [keyboardPush, Meets.bind_iff, Meets.get_iff, Meets.ite_iff, Meets.pure_iff]
  refine ⟨fun _ => trivial, fun h0 => ⟨fun _ => trivial, fun hc => ?_⟩⟩
  refine Kernel.getProcess_rule (·.elim) fun process _ hprocess => ?_
  rw [Kernel.modifyProcess_meets h0 hprocess,
    Kernel.modifyProcess_meets h0 (Kernel.put_store_self _ _ _), Kernel.put_put]
  unfold Kernel.keyboard
  rw [Kernel.put_store, if_neg fun h => hne h.symm]

/-- A pop leaves the buffers of the other processes. -/
theorem keyboardPop_other (hpops : k.Pops q) (hne : q ≠ p) :
    Meets False keyboardPop k fun _ k' => k'.keyboard p = k.keyboard p := by
  obtain ⟨h0, t, ht, rfl⟩ := hpops
  simp only [keyboardPop, Meets.bind_iff, Meets.get_iff, Meets.ite_iff, Meets.pure_iff]
  refine ⟨fun _ => trivial, fun _ => ?_⟩
  rw [Kernel.getTask_meets h0 ht]
  refine Kernel.getProcess_rule (·.elim) fun process hp0 hprocess => ⟨fun _ => rfl, fun hc => ?_⟩
  rw [Kernel.modifyProcess_meets hp0 hprocess,
    Kernel.modifyProcess_meets hp0 (Kernel.put_store_self _ _ _), Kernel.put_put]
  unfold Kernel.keyboard
  rw [Kernel.put_store, if_neg fun h => hne h.symm]

/-- The buffer of `p` when a key has been pressed. -/
def keyFor (p process : ℕ) (o : Option UInt8) (b : KeyboardBuffer) : KeyboardBuffer :=
  if process = p then o.toList.foldl KeyboardBuffer.push b else b

theorem classicKeyboardPushKey_meets {s : System} (hp : p ≠ 0) (hb : s.kernel.keyboard p = some b) :
    Meets False (classicKeyboardPushKey scancode) s fun _ s' =>
      s'.capslockState = s.capslockState ∧ s'.kernel.keyboard p = some (keyFor p
        s.kernel.currentProcess ((classicKeyboardScancodeToChar s.capslockState scancode).filter
          (· ≠ 0)) b) := by
  rw [classicKeyboardPushKey, Meets.bind_iff, Meets.get_iff]
  cases hc : classicKeyboardScancodeToChar s.capslockState scancode with
  | none => exact Meets.fault_iff.mpr not_false
  | some c =>
    simp only [Meets.ite_iff, Meets.bind_iff, inKernel_meets, Option.filter_some, ne_eq,
      decide_not, Bool.not_eq_true', decide_eq_false_iff_not]
    refine ⟨fun hne => ?_, fun h0 => ?_⟩
    · rw [if_pos hne]
      by_cases hcur : s.kernel.currentProcess = p
      · refine (Meets.of_total (keyboardPush_meets hp hcur hne hb)).mono fun _ k₁ hk₁ => ?_
        refine (taskPage_sameKeys.meets _).mono fun _ k₂ h₂ => ⟨trivial, ?_⟩
        rw [keyFor, if_pos hcur]
        exact (h₂.keyboard p).trans hk₁
      · refine (keyboardPush_other hcur).mono fun _ k₁ hk₁ => ?_
        refine (taskPage_sameKeys.meets _).mono fun _ k₂ h₂ => ⟨trivial, ?_⟩
        rw [keyFor, if_neg hcur]
        exact (h₂.keyboard p).trans (hk₁.trans hb)
    · rw [if_neg h0]
      refine (taskPage_sameKeys.meets _).mono fun _ k₁ h₁ => ⟨trivial, ?_⟩
      rw [h₁.keyboard p, hb]
      unfold keyFor
      split_ifs <;> rfl

/-- The driver pushes the character of the key, if it has one. -/
theorem classicKeyboard_meets {s : System} (hp : p ≠ 0) (hb : s.kernel.keyboard p = some b) :
    Meets False (classicKeyboardHandleInterrupt scancode) s fun _ s' =>
      s'.capslockState = capslockAfter s.capslockState scancode ∧
      s'.kernel.keyboard p = some (keyFor p s.kernel.currentProcess
        (typedChar s.capslockState scancode) b) := by
  simp only [classicKeyboardHandleInterrupt, Meets.bind_iff, inKernel_meets, Meets.ite_iff,
    Meets.pure_iff, Meets.modify_iff]
  refine (kernelPage_sameKeys.meets _).mono fun _ k₁ h₁ => ?_
  have hb₁ : k₁.keyboard p = some b := (h₁.keyboard p).trans hb
  refine ⟨fun hrelease => ⟨?_, ?_⟩, fun hpress => ?_⟩
  · refine (if_neg ?_).symm
    rintro rfl
    exact hrelease (by decide)
  · rw [hb₁, typedChar, if_pos hrelease]
    unfold keyFor
    split_ifs <;> rfl
  · have htyped : typedChar s.capslockState scancode = _ := if_neg hpress
    rw [htyped, ← h₁.process]
    unfold capslockAfter
    refine ⟨fun hcaps => ?_, fun hcaps => ?_⟩
    · rw [if_pos hcaps]
      exact classicKeyboardPushKey_meets (s := { s with
        kernel := k₁, capslockState := !s.capslockState }) hp hb₁
    · rw [if_neg hcaps]
      exact classicKeyboardPushKey_meets (s := { s with kernel := k₁ }) hp hb₁

/-- An interrupt of the keyboard, whoever is interrupted. -/
theorem interruptHandler_key {s : System} {frame : InterruptFrame} (hp : p ≠ 0)
    (hb : s.kernel.keyboard p = some b)
    (hcallback : s.idt.interruptCallbacks 0x21 = some .classicKeyboardHandleInterrupt) :
    Meets False (interruptHandler scancode 0x21 frame) s fun _ s' =>
      s'.capslockState = capslockAfter s.capslockState scancode ∧
      s'.kernel.keyboard p = some (keyFor p s.kernel.currentProcess
        (typedChar s.capslockState scancode) b) := by
  simp only [interruptHandler, Meets.bind_iff, inKernel_meets, Meets.get_iff, hcallback]
  refine (kernelPage_sameKeys.meets _).mono fun _ k₁ h₁ => ?_
  refine ((taskCurrentSaveState_sameKeys frame).meets _).mono fun _ k₂ h₂ => ?_
  have hsame := h₁.trans h₂
  rw [← hsame.process]
  simp only [InterruptCallback.run, Meets.bind_iff, Meets.pure_iff]
  refine (classicKeyboard_meets (s := { s with kernel := k₂ }) hp
    ((hsame.keyboard p).trans hb)).mono fun _ s₃ h₃ => ?_
  simp only [if_true, Meets.bind_iff, inKernel_meets, Meets.pure_iff]
  refine (taskPage_sameKeys.meets _).mono fun _ k₄ h₄ => ⟨h₃.1, ?_⟩
  exact (h₄.keyboard p).trans h₃.2

/-- A `getkey` by the process at `q`. -/
theorem isr80hHandler_getkey {s : System} {fuel : ℕ} {buf : LocalArray} {frame : InterruptFrame}
    (hregistered : s.idt.Registered) (hpops : s.kernel.Pops q) {R : UInt8 → Kernel → Prop}
    (hR : ∀ k₁, SameKeys s.kernel k₁ → k₁.Pops q → Meets False keyboardPop k₁ fun c k₂ =>
      ∀ k₃, SameKeys k₂ k₃ → R c k₃) :
    Meets False (isr80hHandler fuel buf 2 frame) s fun res s' =>
      s'.capslockState = s.capslockState ∧ ∃ c, res = .returned (charPtr c) ∧ R c s'.kernel := by
  simp only [isr80hHandler, Meets.bind_iff, inKernel_meets]
  refine (kernelPage_sameKeys.meets _).mono fun _ k₁ h₁ => ?_
  refine ((taskCurrentSaveState_sameKeys frame).meets _).mono fun _ k₂ h₂ => ?_
  have hsame := h₁.trans h₂
  have hcommand : isr80hHandleCommand fuel buf 2 { s with kernel := k₂ } =
      Isr80hCommand.run fuel buf .command2Getkey { s with kernel := k₂ } :=
    isr80hHandleCommand_some (s := { s with kernel := k₂ }) hregistered rfl
  have hrun : Meets False (Isr80hCommand.run fuel buf .command2Getkey) { s with kernel := k₂ }
      fun res s' => Meets False (isr80hReturn res) s' fun res s' =>
        s'.capslockState = s.capslockState ∧ ∃ c, res = .returned (charPtr c) ∧ R c s'.kernel := by
    simp only [Isr80hCommand.run, isr80hCommand2Getkey, Meets.bind_iff, inKernel_meets,
      Meets.pure_iff]
    refine (hR k₂ hsame ((hsame.pops q).mpr hpops)).mono fun c k₃ hk₃ => ?_
    simp only [isr80hReturn, Meets.bind_iff, inKernel_meets, Meets.pure_iff]
    refine (taskPage_sameKeys.meets _).mono fun _ k₄ h₄ => ⟨trivial, c, rfl, hk₃ k₄ h₄⟩
  exact ⟨fun a t e => hrun.1 a t (hcommand ▸ e), fun _ => id⟩

theorem charPtr_inj {c c' : UInt8} (h : charPtr c = charPtr c') : c = c' := by
  have hc := c.toNat_lt
  have hc' := c'.toNat_lt
  have hlt : ∀ x : UInt8, x < 0x80 ↔ x.toNat < 128 := fun x => UInt8.lt_iff_toNat_lt
  unfold charPtr at h
  simp only [hlt] at h
  rw [← UInt8.toNat_inj]
  split_ifs at h <;> omega

/-! ## Runs -/

inductive TypingEvent
  | key (scancode : UInt8)
  | getkey (process : ℕ) (c : UInt8)
  | other

/-- An interrupt of the keyboard, a `getkey` by the process of the current task, or something
that leaves caps lock and the buffer of the process at `p` alone. -/
inductive TypingStep (p : ℕ) : System → TypingEvent → System → Prop
  | key {s s' : System} {scancode : UInt8} {frame : InterruptFrame} {left : Option ℕ} :
      s.idt.interruptCallbacks 0x21 = some .classicKeyboardHandleInterrupt →
      interruptHandler scancode 0x21 frame s = some (left, s') →
      TypingStep p s (.key scancode) s'
  | getkey {s s' : System} {q fuel : ℕ} {c : UInt8} {buf : LocalArray} {frame : InterruptFrame} :
      s.idt.Registered → s.kernel.Pops q →
      isr80hHandler fuel buf 2 frame s = some (.returned (charPtr c), s') →
      TypingStep p s (.getkey q c) s'
  | other {s s' : System} : s'.capslockState = s.capslockState →
      s'.kernel.keyboard p = s.kernel.keyboard p → TypingStep p s .other s'

abbrev TypingRun := List (System × TypingEvent × System)

/-- The key of an event, with the current process. -/
def TypingEvent.pressed (s : System) : TypingEvent → Option (ℕ × UInt8)
  | .key scancode => some (s.kernel.currentProcess, scancode)
  | _ => none

/-- The character that the process at `p` reads in an event. -/
def TypingEvent.read (p : ℕ) : TypingEvent → Option UInt8
  | .getkey q c => if q = p ∧ c ≠ 0 then some c else none
  | _ => none

def keysOf (tr : TypingRun) : List (ℕ × UInt8) := tr.filterMap fun x => x.2.1.pressed x.1

def readFor (p : ℕ) (tr : TypingRun) : List UInt8 := tr.filterMap fun x => x.2.1.read p

/-- The ring holds what has been typed for the process behind what it has read. -/
structure TypingInv (p : ℕ) (capslockState : Bool) (pre : TypingRun) (s : System) : Prop where
  capslock : s.capslockState =
    (keysOf pre).foldl (fun b key => capslockAfter b key.2) capslockState
  queue : ∃ b q, s.kernel.keyboard p = some b ∧ b.Holds q ∧
    readFor p pre ++ q = typedFor p capslockState (keysOf pre)

section Runs

variable {s s' u : System} {e : TypingEvent} {pre tr : TypingRun}

theorem keysOf_concat : keysOf (pre ++ [(s, e, s')]) = keysOf pre ++ (e.pressed s).toList := by
  rw [keysOf, List.filterMap_append]
  cases h : e.pressed s <;> simp [keysOf, h]

theorem readFor_concat : readFor p (pre ++ [(s, e, s')]) = readFor p pre ++ (e.read p).toList := by
  rw [readFor, List.filterMap_append]
  cases h : e.read p <;> simp [readFor, h]

/-- At most a full ring of characters is unread at any moment of the run. -/
def TypedFits (p : ℕ) (capslockState : Bool) (tr : TypingRun) : Prop :=
  ∀ tr₁ tr₂, tr = tr₁ ++ tr₂ → (typedFor p capslockState (keysOf tr₁)).length ≤
    (readFor p tr₁).length + keyboardBufferSize

theorem TypingInv.start (hk : s.kernel.KeysCleared p) : TypingInv p s.capslockState [] s := by
  obtain ⟨b, hb, hzero, htail⟩ := hk
  refine ⟨rfl, b, [], hb, ⟨.nil (fun i _ => hzero i) _, ?_⟩, rfl⟩
  rw [keyboardGetTailIndex, htail, List.length_nil, Nat.add_zero]

/-- One more key. -/
theorem TypingInv.key (hi : TypingInv p capslockState pre s) (hp : p ≠ 0) {frame : InterruptFrame}
    {left : Option ℕ}
    (hcallback : s.idt.interruptCallbacks 0x21 = some .classicKeyboardHandleInterrupt)
    (hrun : interruptHandler scancode 0x21 frame s = some (left, s'))
    (hfits : (typedFor p capslockState (keysOf (pre ++ [(s, .key scancode, s')]))).length ≤
      (readFor p (pre ++ [(s, .key scancode, s')])).length + keyboardBufferSize) :
    TypingInv p capslockState (pre ++ [(s, .key scancode, s')]) s' := by
  obtain ⟨b, q, hb, hq, hpre⟩ := hi.queue
  obtain ⟨hcaps, hb'⟩ := (interruptHandler_key hp hb hcallback).of_eq hrun
  rw [keysOf_concat, readFor_concat, typedFor_append, ← hpre, ← hi.capslock] at hfits
  refine ⟨?_, ?_⟩
  · rw [keysOf_concat, List.foldl_append, ← hi.capslock, hcaps]
    rfl
  · rw [keysOf_concat, readFor_concat, typedFor_append, ← hpre, ← hi.capslock]
    simp only [TypingEvent.pressed, TypingEvent.read, Option.toList_some, Option.toList_none,
      typedFor, List.append_nil, List.append_assoc] at hfits ⊢
    unfold keyFor at hb'
    split_ifs at hb' hfits ⊢ with hcur
    · cases hc : typedChar s.capslockState scancode with
      | none =>
        rw [hc] at hb'
        exact ⟨b, q, hb', hq, by simp⟩
      | some c =>
        rw [hc] at hb' hfits
        refine ⟨b.push c, q ++ [c], hb', hq.push ?_ (typedChar_ne_zero hc), by simp⟩
        simp only [Option.toList_some, List.length_append, List.length_singleton] at hfits
        omega
    · exact ⟨b, q, hb', hq, by simp⟩

/-- A `getkey` by the process itself takes the first character, or answers 0. -/
theorem TypingInv.getkey_self (hi : TypingInv p capslockState pre s) (hp : p ≠ 0) {fuel : ℕ}
    {buf : LocalArray} {frame : InterruptFrame} (hregistered : s.idt.Registered)
    (hpops : s.kernel.Pops p)
    (hrun : isr80hHandler fuel buf 2 frame s = some (.returned (charPtr c), s')) :
    TypingInv p capslockState (pre ++ [(s, .getkey p c, s')]) s' ∧
      (c = 0 ↔ readFor p pre = typedFor p capslockState (keysOf pre)) := by
  obtain ⟨b, q, hb, hq, hpre⟩ := hi.queue
  have hpop : Meets False (isr80hHandler fuel buf 2 frame) s _ :=
    isr80hHandler_getkey hregistered hpops
      (R := fun c k' => c = b.buffer b.headIndex ∧ k'.keyboard p = some b.pop) fun k₁ h₁ hpops₁ =>
      (Meets.of_total (keyboardPop_meets hp hpops₁ ((h₁.keyboard p).trans hb))).mono
        fun c k₂ h₂ k₃ h₃ => ⟨h₂.1, (h₃.keyboard p).trans h₂.2⟩
  obtain ⟨hcaps, c', hc', hread, hb'⟩ := hpop.of_eq hrun
  obtain rfl : c = c' := charPtr_inj (CommandEnd.returned.inj hc')
  have hcapslock : s'.capslockState = (keysOf (pre ++ [(s, .getkey p c, s')])).foldl
      (fun b key => capslockAfter b key.2) capslockState := by
    rw [keysOf_concat, hcaps, hi.capslock]
    simp [TypingEvent.pressed]
  refine ⟨⟨hcapslock, ?_⟩, by rw [hread, hq.head_eq_zero, ← hpre]; simp⟩
  rw [keysOf_concat, readFor_concat]
  simp only [TypingEvent.pressed, TypingEvent.read, Option.toList_none, List.append_nil, true_and]
  cases q with
  | nil =>
    have h0 := hq.head_eq_zero.mpr rfl
    have hpop : b.pop = b := if_pos h0
    refine ⟨b, [], by rw [hb', hpop], hq, ?_⟩
    simp [hread, h0, ← hpre]
  | cons d q =>
    obtain ⟨hd, hq'⟩ := hq.pop
    have hd0 : d ≠ 0 := hq.ring.full d List.mem_cons_self
    refine ⟨b.pop, q, hb', hq', ?_⟩
    simp [hread, hd, hd0, ← hpre]

/-- A `getkey` by another process. -/
theorem TypingInv.getkey_other {q fuel : ℕ} {buf : LocalArray} {frame : InterruptFrame}
    (hi : TypingInv p capslockState pre s) (hne : q ≠ p) (hregistered : s.idt.Registered)
    (hpops : s.kernel.Pops q)
    (hrun : isr80hHandler fuel buf 2 frame s = some (.returned (charPtr c), s')) :
    TypingInv p capslockState (pre ++ [(s, .getkey q c, s')]) s' := by
  obtain ⟨b, l, hb, hl, hpre⟩ := hi.queue
  have hpop : Meets False (isr80hHandler fuel buf 2 frame) s _ :=
    isr80hHandler_getkey hregistered hpops
      (R := fun _ k' => k'.keyboard p = s.kernel.keyboard p) fun k₁ h₁ hpops₁ =>
      (keyboardPop_other hpops₁ hne).mono fun c k₂ h₂ k₃ h₃ =>
        (h₃.keyboard p).trans (h₂.trans (h₁.keyboard p))
  obtain ⟨hcaps, c', -, hb'⟩ := hpop.of_eq hrun
  refine ⟨?_, b, l, hb'.trans hb, hl, ?_⟩
  · rw [keysOf_concat, hcaps, hi.capslock]
    simp [TypingEvent.pressed]
  · rw [keysOf_concat, readFor_concat]
    simpa [TypingEvent.pressed, TypingEvent.read, hne] using hpre

theorem TypingInv.step (hi : TypingInv p capslockState pre s) (hp : p ≠ 0)
    (hs : TypingStep p s e s')
    (hfits : (typedFor p capslockState (keysOf (pre ++ [(s, e, s')]))).length ≤
      (readFor p (pre ++ [(s, e, s')])).length + keyboardBufferSize) :
    TypingInv p capslockState (pre ++ [(s, e, s')]) s' := by
  cases hs with
  | key hcallback hrun => exact hi.key hp hcallback hrun hfits
  | @getkey _ q _ _ _ _ hregistered hpops hrun =>
    by_cases hq : q = p
    · subst hq
      exact (hi.getkey_self hp hregistered hpops hrun).1
    · exact hi.getkey_other hq hregistered hpops hrun
  | other hcaps hsame =>
    obtain ⟨b, q, hb, hq, hpre⟩ := hi.queue
    refine ⟨?_, b, q, hsame.trans hb, hq, ?_⟩
    · rw [keysOf_concat, hcaps, hi.capslock]
      simp [TypingEvent.pressed]
    · rw [keysOf_concat, readFor_concat]
      simpa [TypingEvent.pressed, TypingEvent.read] using hpre

end Runs

/-- Whatever else the system does, a process reads what is typed while it is the current one, in
order and with the letters in the case that caps lock gives them, and `getkey` answers 0 exactly
when everything has been read. -/
theorem typing_fifo {s u : System} {tr : TypingRun} (hp : p ≠ 0) (hk : s.kernel.KeysCleared p)
    (h : Trace (TypingStep p) s tr u) (hfits : TypedFits p s.capslockState tr) :
    readFor p tr <+: typedFor p s.capslockState (keysOf tr) ∧
      u.capslockState = (s.capslockState ^^
        decide (((keysOf tr).map Prod.snd).count 0x3A % 2 = 1)) ∧
      ∀ tr₁ tr₂ t t' c, tr = tr₁ ++ (t, .getkey p c, t') :: tr₂ →
        (c = 0 ↔ readFor p tr₁ = typedFor p s.capslockState (keysOf tr₁)) := by
  have hinv := h.history (I := TypingInv p s.capslockState) [] (.start hk)
    fun tr₁ t e t' tr₂ htr hs hi => hi.step hp hs
      (hfits (tr₁ ++ [(t, e, t')]) tr₂ (by simp [htr]))
  obtain ⟨hend, hall⟩ := hinv
  refine ⟨?_, ?_, fun tr₁ tr₂ t t' c htr => ?_⟩
  · obtain ⟨b, q, -, -, hpre⟩ := hend.queue
    exact ⟨q, hpre⟩
  · rw [← capslock_parity]
    exact hend.capslock
  · have hs := h.step_of_mem (t, .getkey p c, t') (by simp [htr])
    cases hs with
    | getkey hregistered hpops hrun =>
      exact ((hall tr₁ _ tr₂ htr).getkey_self hp hregistered hpops hrun).2

/-! ## A key that is read -/

theorem typedFor_length_le : ∀ (keys : List (ℕ × UInt8)) (capslockState : Bool),
    (typedFor p capslockState keys).length ≤ keys.length
  | [], _ => le_rfl
  | (process, scancode) :: keys, capslockState => by
    have hrest := typedFor_length_le keys (capslockAfter capslockState scancode)
    rw [typedFor, List.length_append, List.length_cons]
    split_ifs
    · cases typedChar capslockState scancode <;> simp <;> omega
    · simp only [List.length_nil]
      omega

/-- The process at 8192 is the current one, and its task the current task. -/
def typingSystem : System where
  kernel := { keyboardKernel ⟨fun _ => 0, 0, 0⟩ with
    store := fun a =>
      if a = 8192 then some (.process (typing ⟨fun _ => 0, 0, 0⟩))
      else if a = 12288 then some (.task { Task.zero with pageDirectory := 4096, process := 8192 })
      else if a = 4096 then some (.chunk 16384)
      else none
    kernelChunk := 4096 }
  idt := { stubIdt with
    interruptCallbacks := fun i => if i = 0x21 then some .classicKeyboardHandleInterrupt else none
    isr80hCommands := fun n => systemCommands[n]? }
  terminal := ⟨fun _ => 0, 0, 0, []⟩
  capslockState := false

theorem typing_fifo_h : ∃ tr u, Trace (TypingStep 8192) typingSystem tr u ∧
    readFor 8192 tr = [104] ∧ readFor 8192 tr <+: typedFor 8192 false (keysOf tr) := by
  have hcleared : typingSystem.kernel.KeysCleared 8192 :=
    ⟨_, Kernel.keyboard_eq_some.mpr ⟨_, rfl, rfl⟩, fun _ => rfl, rfl⟩
  obtain ⟨s₁, u, hkey, hidt, hpops, hget⟩ : ∃ s₁ u, interruptHandler 35 0x21
      (frameOf userCpu 0x400010 0x600000) typingSystem = some (none, s₁) ∧
      s₁.idt = typingSystem.idt ∧ s₁.kernel.Pops 8192 ∧
      isr80hHandler 0 (.fresh fun _ => 0) 2 (frameOf userCpu 0x400010 0x600000) s₁ =
        some (.returned (charPtr 104), u) :=
    ⟨_, _, rfl, rfl, ⟨by decide, _, rfl, rfl⟩, rfl⟩
  have htr : Trace (TypingStep 8192) typingSystem
      [(typingSystem, .key 35, s₁), (s₁, .getkey 8192 104, u)] u :=
    .cons (.key rfl hkey) (.cons (.getkey (fun n => by rw [hidt]; rfl) hpops hget) (.nil u))
  refine ⟨_, u, htr, by simp [readFor, TypingEvent.read],
    (typing_fifo (by decide) hcleared htr fun tr₁ tr₂ he => ?_).1⟩
  have hlen : tr₁.length ≤ 2 := by
    have := congrArg List.length he
    simp only [List.length_cons, List.length_nil, List.length_append] at this
    omega
  have hkeys : (keysOf tr₁).length ≤ tr₁.length := List.length_filterMap_le ..
  have htyped := typedFor_length_le (p := 8192) (keysOf tr₁) typingSystem.capslockState
  unfold keyboardBufferSize
  omega

end Hyperion
