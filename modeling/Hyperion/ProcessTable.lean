import Hyperion.AllocationOwners
import Hyperion.ImageKept
import Hyperion.LoadFailure
import Hyperion.Termination

/-!
# The table of processes over runs

Runs of `process_load_switch`, succeeding or failing, and of `process_terminate` of a process
that is registered. Every structure and block of a registered process belongs to it
(`Resident`), so that the end of one process leaves the others as they were, and the table stays
consistent.

`TableInv` is the invariant, with a ledger that gives every block to one process at most. A load
that succeeds adds a process whose blocks were free (`TableInv.load`), one that fails leaves the
processes as they were (`LoadFailed.extends`), and an end takes the blocks of one process and
no others (`Resident.terminated`). After it another process of the table is the current one.

A step is a call with a result (`TableStep`), the end of a process with the store through `prev`
wherever that leads. The invariant is kept by a call that is `Linked` : the pointers at the ends of
the list and `prev` are null or lead to the task of a process in the table (`TableInv.step`). The
others store through a pointer to a task that has been freed, and what comes of that is another
matter.
-/

namespace Hyperion

open Partial FreeRun

variable {k k' k₀ k₁ k₂ : Kernel} {process slot a b c n q : ℕ} {p : Process} {t : Task} {d : ℕ}
  {f e : ℕ → ℕ} {filename : List UInt8} {F : ℕ → Prop} {L L' : ℕ → Option ℕ}

/-! ## The processes in the table -/

/-- A pointer to something that belongs to a process : its structures, its data and its stack. -/
inductive Process.Pointer (process : ℕ) (p : Process) (t : Task) (d : ℕ) (f : ℕ → ℕ) : ℕ → Prop
  | space {a : ℕ} : ProcessPointer process p t d f a → Pointer process p t d f a
  | data {a : ℕ} : p.DataPointer a → Pointer process p t d f a
  | stack : Pointer process p t d f p.stack

/-- The process in slot `slot`, whose structure is at `process`. The ledger `L` gives all that
belongs to it to it. -/
structure Resident (L : ℕ → Option ℕ) (k : Kernel) (process slot : ℕ) (p : Process) (t : Task)
    (d : ℕ) (f e : ℕ → ℕ) : Prop where
  at_process : ProcessAt k process p t d f e
  pid : p.pid = slot
  owner : t.process = process
  typed : p.Typed
  data : ∀ a, p.DataPointer a → ¬ProcessPointer process p t d f a
  stack : ¬ProcessPointer process p t d f p.stack
  owned : ∀ a, p.Pointer process t d f a → L a = some process ∧ ∃ n, k.Owns a n

/-- Another `next` pointer of a task. -/
theorem ProcessAt.setNext (h : ProcessAt k process p t d f e) (q n : ℕ) : ∃ t',
    ProcessAt (k.setNext q n) process p t' d f e ∧ t'.process = t.process ∧
      t'.pageDirectory = t.pageDirectory := by
  have hother {a : ℕ} {o : Obj} (ha : k.store a = some o) (ho : ∀ t, o ≠ .task t) :
      (k.setNext q n).store a = some o := Kernel.setNext_store_of_not_task ha ho
  have hself := hother h.self (by simp)
  have hmaps : Maps (k.setNext q n) t.pageDirectory d f e :=
    ⟨h.maps.chunk_ne, h.maps.directory_ne, h.maps.table_ne, h.maps.inj,
      hother h.maps.chunk (by simp), hother h.maps.directory (by simp), fun i hi => by
        obtain ⟨g, hg, he⟩ := h.maps.table i hi
        exact ⟨g, hother hg (by simp), he⟩⟩
  by_cases hq : p.task = q
  · refine ⟨{ t with next := n }, ⟨h.ne_zero, h.task_ne, hself, ?_, hmaps⟩, rfl, rfl⟩
    rw [← hq]
    exact Kernel.setNext_store_self h.task_ne h.task
  · exact ⟨t, ⟨h.ne_zero, h.task_ne, hself, (k.setNext_store hq).trans h.task, hmaps⟩, rfl, rfl⟩

/-- The task before and after in the list do not matter. -/
theorem ProcessPointer.congr {t' : Task} (ht : t'.pageDirectory = t.pageDirectory)
    (h : ProcessPointer process p t' d f a) : ProcessPointer process p t d f a := by
  cases h with
  | self => exact .self
  | task => exact .task
  | chunk => exact ht ▸ .chunk
  | directory => exact .directory
  | table hi => exact .table hi

theorem Process.Pointer.congr {t' : Task} (ht : t'.pageDirectory = t.pageDirectory)
    (h : p.Pointer process t' d f a) : p.Pointer process t d f a := by
  cases h with
  | space h => exact .space (h.congr ht)
  | data h => exact .data h
  | stack => exact .stack

/-- What belongs to a process is left as it was, up to `next` pointers. -/
theorem Resident.frame (h : Resident L k process slot p t d f e) (q c : ℕ)
    (hstore : ∀ a n, L a = some process → k.Owns a n → k'.store a = (k.setNext q c).store a)
    (howns : ∀ a n, L a = some process → k.Owns a n → L' a = some process ∧ k'.Owns a n) :
    ∃ t', Resident L' k' process slot p t' d f e := by
  obtain ⟨t', hat, hproc, hdir⟩ := h.at_process.setNext q c
  refine ⟨t', hat.congr fun a ha => ?_, h.pid, hproc.trans h.owner, h.typed,
    fun a ha hp => h.data a ha (hp.congr hdir), fun hp => h.stack (hp.congr hdir), fun a ha => ?_⟩
  · obtain ⟨hL, n, hn⟩ := h.owned a (.space (ha.congr hdir))
    exact hstore a n hL hn
  · obtain ⟨hL, n, hn⟩ := h.owned a (ha.congr hdir)
    exact ⟨(howns a n hL hn).1, n, (howns a n hL hn).2⟩

/-- Allocation leaves a process as it was. -/
theorem Resident.extends (h : Resident L k process slot p t d f e)
    (hext : (k.setNext q c).Extends k')
    (hL : ∀ a n, L a = some process → k.Owns a n → L' a = some process) :
    ∃ t', Resident L' k' process slot p t' d f e := by
  have howns {a n : ℕ} (ho : k.Owns a n) : (k.setNext q c).Owns a n := ho.of_table (by simp)
  exact h.frame q c (fun a n _ ho => hext.store_of_owns (howns ho))
    fun a n hLa ho => ⟨hL a n hLa ho, hext.owns (howns ho)⟩

/-! ## The two calls -/

/-- A process that has just been loaded. -/
theorem Loaded.resident (h : Loaded k k₁ process slot p t d f e) (L : ℕ → Option ℕ) :
    Resident (ledgerFor L k process) k₁ process slot p t d f e := by
  have hfresh {a : ℕ} (ha : k.Fresh a) : ledgerFor L k process a = some process :=
    ledgerFor_of_fresh ha
  have hbuffer {a n : ℕ} (ha : Buffer k k₁ a n) : ¬ProcessPointer process p t d f a := by
    intro hp
    obtain ⟨-, o, ho⟩ := h.at_process.exists_obj hp
    rw [ha.store] at ho
    cases ho
  refine ⟨h.at_process, ?_, h.owner, h.data.typed, fun a ha => ?_, hbuffer h.stack, ?_⟩
  · obtain ⟨_, _, _, _, _, _, hsame⟩ := h.same
    rw [hsame]
  · obtain ⟨n, hn⟩ := h.data.pointer ha
    exact hbuffer hn
  · rintro a (hp | hd)
    · by_cases he : a = process
      · exact ⟨hfresh (he ▸ h.fresh), 3, he ▸ h.owns⟩
      · obtain ⟨hf, ho⟩ := h.space a hp he
        exact ⟨hfresh hf, 1, ho⟩
    · obtain ⟨n, hn⟩ := h.data.pointer hd
      exact ⟨hfresh hn.fresh, _, hn.owns⟩
    · exact ⟨hfresh h.stack.fresh, _, h.stack.owns⟩

/-- What `process_terminate` frees. -/
def Process.Freed (process : ℕ) (p : Process) (t : Task) (d : ℕ) (f : ℕ → ℕ) (a : ℕ) : Prop :=
  p.Pointer process t d f a ∧ a ≠ process

/-- What a process owns was free before it was allocated. -/
theorem Resident.ownData (h : Resident L k process slot p t d f e) :
    OwnData (k.without (p.Freed process t d f)) process p t d f := by
  have hfreed {a : ℕ} (ha : p.Pointer process t d f a) (hne : a ≠ process) :
      (k.without (p.Freed process t d f)).Fresh a := by
    obtain ⟨-, n, hn⟩ := h.owned a ha
    exact hn.fresh_without ⟨ha, hne⟩
  have hne {a : ℕ} (ha : ¬ProcessPointer process p t d f a) : a ≠ process := fun he =>
    ha (he ▸ .self)
  refine ⟨fun a ha => ⟨hfreed (.data ha) (hne (h.data a ha)), h.data a ha⟩,
    ⟨hfreed .stack (hne h.stack), h.stack⟩, fun a ha hne => hfreed (.space ha) hne, ?_⟩
  obtain ⟨-, n, hn⟩ := h.owned process (.space .self)
  exact (hn.without fun hF => hF.2 rfl).not_fresh

theorem Resident.allocState (h : Resident L k process slot p t d f e)
    (hempty : ∀ i, p.allocations i = ⟨0, 0⟩) : AllocState k process p t d f k p.allocations e where
  keeps := .refl _
  at_process := h.at_process
  pointers a ha := by
    obtain ⟨-, n, hn⟩ := h.owned a (.space ha)
    exact hn.not_fresh
  records i _ := .inl (by rw [hempty])

/-- The end of a process leaves the others as they were. -/
theorem Resident.terminated {process' slot' d' : ℕ} {p' : Process} {t' : Task} {f' e' : ℕ → ℕ}
    (h : Resident L k process slot p t d f e) (h' : Resident L k process' slot' p' t' d' f' e')
    (hne : process ≠ process')
    (hend : Terminated (k.without (p'.Freed process' t' d' f')) k k' process' p' t') :
    ∃ t₁, Resident L k' process slot p t₁ d f e := by
  have hother {a : ℕ} (hL : L a = some process) : ¬p'.Pointer process' t' d' f' a := by
    intro ha
    rw [(h'.owned a ha).1] at hL
    exact hne (Option.some.inj hL).symm
  have howns {a n : ℕ} (hL : L a = some process) (ho : k.Owns a n) :
      (k.without (p'.Freed process' t' d' f')).Owns a n := ho.without fun hF => hother hL hF.1
  refine h.frame t'.prev t'.next (fun a n hL ho => ?_) fun a n hL ho => ⟨hL, ?_⟩
  · exact hend.store a ho.ne_zero (howns hL ho).not_fresh fun he => hother hL (he ▸ .space .self)
  · obtain ⟨b, rfl, hb⟩ := howns hL ho
    exact ⟨b, rfl, hend.keeps.held hb⟩

/-- A load that fails leaves the processes as they were. -/
theorem LoadFailed.extends (h : LoadFailed k b k') : ∃ q c, (k.setNext q c).Extends k' ∧
    k'.processes = k.processes ∧ k'.currentProcess = k.currentProcess := by
  obtain ⟨p, ⟨hext, hglob⟩ | ⟨task, t, -, -, -, hext, hglob⟩⟩ := h.left
  · exact ⟨0, 0, (h.answers.ext.put h.answers.fresh _).trans hext,
      (Kernel.processes_of_globals hglob).trans rfl,
      (Kernel.currentProcess_of_globals hglob).trans rfl⟩
  · exact ⟨_, _, ((h.answers.ext.put h.answers.fresh _).setNext _ _).trans hext,
      (Kernel.processes_of_globals hglob).trans rfl,
      (Kernel.currentProcess_of_globals hglob).trans rfl⟩

/-! ## Runs -/

/-- A call, a load with its status. -/
inductive TableCall
  | load (filename : List UInt8) (res : Int)
  | terminate (process : ℕ)

/-- The call loads a process. -/
def TableCall.Loads : TableCall → Prop
  | .load _ res => res = 0
  | .terminate _ => False

/-- A `process_load_switch`, or a `process_terminate` of a registered process, which stores through
the `prev` pointer of its task. -/
inductive TableStep : Kernel → TableCall → Kernel → Prop
  | load {k k' : Kernel} {filename : List UInt8} {res : Int} {process : ℕ} :
      processLoadSwitch filename k = some ((res, process), k') → TableStep k (.load filename res) k'
  | terminate {k k' : Kernel} {i : ℕ} {res : Int} : i < maxProcesses → k.processes i ≠ 0 →
      processTerminateStored (k.processes i) k = some (res, k') →
      TableStep k (.terminate (k.processes i)) k'

/-- The task at `task` is that of a process in the table, another one than `process`. -/
def Kernel.TaskOfOther (k : Kernel) (process task : ℕ) : Prop :=
  ∃ j < maxProcesses, k.processes j ≠ 0 ∧ k.processes j ≠ process ∧
    ∃ q, k.store (k.processes j) = some (.process q) ∧ q.task = task

/-- The call stores through no pointer to a task that has been freed : a load finds the list empty
or the task of a process at its end, and the task of a process that ends has such a task before it
or none. -/
def TableCall.Linked (k : Kernel) : TableCall → Prop
  | .load _ _ => k.taskHead ≠ 0 → k.TaskOfOther 0 k.taskTail
  | .terminate process => ∀ p t, k.store process = some (.process p) →
      k.store p.task = some (.task t) → t.prev ≠ 0 → k.TaskOfOther process t.prev

/-- A slot in use has a process with its number as `pid`, whose task leads back to it, no process
is in two slots, and the current process, if there is one, is in the slot of its own `pid`. -/
structure TableConsistent (k : Kernel) : Prop where
  slot : ∀ i < maxProcesses, k.processes i ≠ 0 → ∃ p t,
    k.store (k.processes i) = some (.process p) ∧
    p.pid = i ∧ k.store p.task = some (.task t) ∧ t.process = k.processes i
  distinct : ∀ i < maxProcesses, ∀ j < maxProcesses, k.processes i ≠ 0 →
    k.processes i = k.processes j → i = j
  current : k.currentProcess ≠ 0 → ∃ p, k.store k.currentProcess = some (.process p) ∧
    p.pid < maxProcesses ∧ k.processes p.pid = k.currentProcess

/-- The kernel has no processes yet. -/
structure NoProcesses (k : Kernel) : Prop where
  guarded : Guarded k.table
  processes : ∀ i < maxProcesses, k.processes i = 0
  currentProcess : k.currentProcess = 0

/-- Each process in the table owns what belongs to it, and the current process is in the table. -/
structure TableInv (L : ℕ → Option ℕ) (k : Kernel) : Prop where
  guarded : Guarded k.table
  resident : ∀ i < maxProcesses, k.processes i ≠ 0 → ∃ p t d f e,
    Resident L k (k.processes i) i p t d f e ∧ ∀ i, p.allocations i = ⟨0, 0⟩
  current : k.currentProcess ≠ 0 → ∃ i < maxProcesses, k.processes i = k.currentProcess

namespace TableInv

theorem of_noProcesses (h : NoProcesses k) : TableInv (fun _ => none) k :=
  ⟨h.guarded, fun i hi hne => absurd (h.processes i hi) hne, fun hne => absurd h.currentProcess hne⟩

theorem distinct (h : TableInv L k) {i j : ℕ} (hi : i < maxProcesses) (hj : j < maxProcesses)
    (hne : k.processes i ≠ 0) (he : k.processes i = k.processes j) : i = j := by
  obtain ⟨p, t, d, f, e, hp, -⟩ := h.resident i hi hne
  obtain ⟨p', t', d', f', e', hp', -⟩ := h.resident j hj (he ▸ hne)
  have hself := hp'.at_process.self
  rw [← he, hp.at_process.self, Option.some_inj, Obj.process.injEq] at hself
  rw [← hp.pid, ← hp'.pid, hself]

theorem consistent (h : TableInv L k) : TableConsistent k where
  slot i hi hne := by
    obtain ⟨p, t, d, f, e, hp, -⟩ := h.resident i hi hne
    exact ⟨p, t, hp.at_process.self, hp.pid, hp.at_process.task, hp.owner⟩
  distinct i hi j hj hne he := h.distinct hi hj hne he
  current hne := by
    obtain ⟨i, hi, he⟩ := h.current hne
    obtain ⟨p, t, d, f, e, hp, -⟩ := h.resident i hi (he.trans_ne hne)
    exact ⟨p, he ▸ hp.at_process.self, hp.pid ▸ hi, hp.pid ▸ he⟩

/-- Nothing happens to the processes. -/
theorem of_extends (h : TableInv L k) (hext : (k.setNext q c).Extends k')
    (hprocs : k'.processes = k.processes) (hcur : k'.currentProcess = k.currentProcess) :
    TableInv L k' := by
  refine ⟨hext.keeps.guarded (by rw [Kernel.setNext_table]; exact h.guarded),
    fun i hi hne => ?_, ?_⟩
  · rw [hprocs] at hne ⊢
    obtain ⟨p, t, d, f, e, hp, hempty⟩ := h.resident i hi hne
    obtain ⟨t', hp'⟩ := hp.extends hext fun _ _ hL _ => hL
    exact ⟨p, t', d, f, e, hp', hempty⟩
  · rw [hprocs, hcur]
    exact h.current

/-- A process is loaded and switched to. -/
theorem load (h : TableInv L k) (hslot : FirstFreeSlot k.processes slot)
    (hl : Loaded k k₁ process slot p t d f e) :
    TableInv (ledgerFor L k process) { k₁ with currentProcess := process } := by
  have hprocs : k₁.processes = fun i => if i = slot then process else k.processes i :=
    Kernel.processes_of_globals hl.globals
  have hself : k₁.processes slot = process := by
    rw [hprocs]
    exact if_pos rfl
  have hext : (k.setNext k.listEnd p.task).Extends { k₁ with currentProcess := process } :=
    hl.ext.of_eq rfl rfl
  refine ⟨hl.guarded h.guarded, fun i hi hne => ?_, fun _ => ⟨slot, hslot.lt, hself⟩⟩
  have hne' : k₁.processes i ≠ 0 := hne
  show ∃ p t d f e, Resident _ _ (k₁.processes i) i p t d f e ∧ _
  by_cases his : i = slot
  · have hext₁ : (k₁.setNext 0 0).Extends { k₁ with currentProcess := process } :=
      (Kernel.Extends.refl k₁).of_eq rfl rfl
    obtain ⟨t', hp'⟩ := (hl.resident L).extends hext₁ fun _ _ hL _ => hL
    rw [his, hself]
    exact ⟨p, t', d, f, e, hp', hl.allocations⟩
  · have hi' : k₁.processes i = k.processes i := by
      rw [hprocs]
      exact if_neg his
    rw [hi'] at hne' ⊢
    obtain ⟨p₁, t₁, d₁, f₁, e₁, hp₁, hempty⟩ := h.resident i hi hne'
    have hledger : ∀ a n, L a = some (k.processes i) → k.Owns a n →
        ledgerFor L k process a = some (k.processes i) := fun a n hL ho =>
      (ledgerFor_of_not_fresh ho.not_fresh).trans hL
    obtain ⟨t', hp'⟩ := hp₁.extends hext hledger
    exact ⟨p₁, t', d₁, f₁, e₁, hp', hempty⟩

/-- A process ends. -/
theorem terminate (h : TableInv L k) (hp : Resident L k process slot p t d f e)
    (hslot : slot < maxProcesses) (hself : k.processes slot = process)
    (hend : Terminated (k.without (p.Freed process t d f)) k k' process p t) :
    TableInv L k' ∧ (k.currentProcess ≠ 0 → k'.currentProcess ≠ 0) := by
  obtain ⟨c, hc, hglob⟩ := hend.globals
  have hprocs : k'.processes = fun i => if i = p.pid then 0 else k.processes i :=
    Kernel.processes_of_globals hglob
  have hcur : k'.currentProcess = c := Kernel.currentProcess_of_globals hglob
  have hne₀ : k.processes slot ≠ 0 := hself.trans_ne hp.at_process.ne_zero
  have hother {i : ℕ} (hi : i ≠ slot) : k'.processes i = k.processes i := by
    rw [hprocs, hp.pid]
    exact if_neg hi
  refine ⟨⟨hend.keeps.guarded (Kernel.without_guarded h.guarded), fun i hi hne => ?_, ?_⟩, ?_⟩
  · have his : i ≠ slot := by
      rintro rfl
      rw [hprocs, hp.pid] at hne
      exact hne (if_pos rfl)
    rw [hother his] at hne ⊢
    obtain ⟨p₁, t₁, d₁, f₁, e₁, hp₁, hempty⟩ := h.resident i hi hne
    have hdiff : k.processes i ≠ process := fun he =>
      his (h.distinct hi hslot hne (he.trans hself.symm))
    obtain ⟨t', hp'⟩ := hp₁.terminated hp hdiff hend
    exact ⟨p₁, t', d₁, f₁, e₁, hp', hempty⟩
  · rw [hcur]
    cases hc with
    | other hne =>
      intro hcur0
      obtain ⟨i, hi, he⟩ := h.current hcur0
      have his : i ≠ slot := by
        rintro rfl
        exact hne (he.symm.trans hself)
      exact ⟨i, hi, (hother his).trans he⟩
    | @any i _ hi hip _ => exact fun _ => ⟨i, hi, hother (hp.pid ▸ hip)⟩
  · rw [hcur]
    cases hc with
    | other _ => exact id
    | any _ _ _ hne => exact fun _ => hne

/-- One call. -/
theorem step {call : TableCall} (h : TableInv L k) (hstep : TableStep k call k')
    (hl : call.Linked k) :
    (∃ L', TableInv L' k') ∧ (k.currentProcess ≠ 0 ∨ call.Loads → k'.currentProcess ≠ 0) := by
  cases hstep with
  | @load _ _ res process hrun =>
    rcases (processLoadSwitch_meets h.guarded).of_eq hrun with ⟨hneg, rfl, -⟩ | ⟨hneg, -, b, hb⟩ |
      ⟨k₁, slot, p, t, d, f, e, hres, hslot, hl, rfl⟩
    · refine ⟨⟨L, h⟩, fun hor => hor.resolve_right fun h0 => ?_⟩
      have h0' : res = 0 := h0
      omega
    · obtain ⟨q, c, hext, hprocs, hcur⟩ := hb.extends
      refine ⟨⟨L, h.of_extends hext hprocs hcur⟩, fun hor => hcur.trans_ne (hor.resolve_right
        fun h0 => ?_)⟩
      have h0' : res = 0 := h0
      omega
    · exact ⟨⟨_, h.load hslot hl⟩, fun _ => hl.at_process.ne_zero⟩
  | @terminate _ i res hi hne hrun =>
    obtain ⟨p, t, d, f, e, hp, hempty⟩ := h.resident i hi hne
    have hprev (hp0 : t.prev ≠ 0) : ¬(k.without (p.Freed (k.processes i) t d f)).Fresh t.prev ∧
        ∃ q, k.store t.prev = some (.task q) := by
      obtain ⟨j, hj, hne', hdiff, q, hq, he⟩ :=
        hl p t hp.at_process.self hp.at_process.task hp0
      obtain ⟨p', t', d', f', e', hp', -⟩ := h.resident j hj hne'
      rw [hp'.at_process.self, Option.some_inj, Obj.process.injEq] at hq
      subst hq
      rw [← he]
      obtain ⟨hL, n, ho⟩ := hp'.owned p'.task (.space .task)
      refine ⟨(ho.without fun hF => hdiff ?_).not_fresh, t', hp'.at_process.task⟩
      exact Option.some.inj (hL.symm.trans (hp.owned _ hF.1).1)
    have hend : Meets False (processTerminateStored (k.processes i)) k _ :=
      processTerminateWith_meets (taskListRemoveStored_removes hp.at_process.task_ne)
        (Kernel.without_guarded h.guarded) (k.without_keeps _)
        (hp.allocState hempty) hp.ownData (fun _ => hprev) False.elim
    obtain ⟨hinv, hcur⟩ := h.terminate hp hi rfl (hend.of_eq hrun).2
    exact ⟨⟨L, hinv⟩, fun hor => hcur (hor.resolve_right id)⟩

end TableInv

/-- Nothing is stored through a pointer to a freed task : the table of processes is consistent in
every state of the run, and there is no current process only while no load has succeeded. -/
theorem TableInv.run (h₀ : NoProcesses k₀) {tr : List (Kernel × TableCall × Kernel)}
    (htr : Trace TableStep k₀ tr k) (hl : ∀ x ∈ tr, x.2.1.Linked x.1) :
    (∃ L, TableInv L k) ∧ (k.currentProcess = 0 → ∀ x ∈ tr, ¬x.2.1.Loads) := by
  refine (htr.history (I := fun tr s => (∃ L, TableInv L s) ∧
    (s.currentProcess = 0 → ∀ x ∈ tr, ¬x.2.1.Loads)) [] ⟨⟨_, .of_noProcesses h₀⟩, by simp⟩ ?_).1
  rintro tr₁ s call s' tr₂ rfl hs ⟨⟨L, hinv⟩, hidle⟩
  obtain ⟨hinv', hcur⟩ := hinv.step hs
    (hl _ (List.mem_append_right _ List.mem_cons_self))
  refine ⟨hinv', fun h0 x hx => ?_⟩
  rcases List.mem_append.mp hx with hx | hx
  · refine hidle ?_ x hx
    by_contra hne
    exact hcur (.inl hne) h0
  · obtain rfl := List.mem_singleton.mp hx
    exact fun hl => hcur (.inr hl) h0

end Hyperion
