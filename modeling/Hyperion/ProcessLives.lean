import Hyperion.KernelExit

/-!
# The lives of the processes

What a process has, from the load to its end : its structures, its data, its stack and its
allocations, each of which is allocated and belongs to no other process (`Living`). Loads,
`process_malloc`, `process_free` and `process_terminate` keep that for all the processes in the
table (`Population`), and so does everything that leaves the layout of the structures, whatever
it writes into them.
-/

namespace Hyperion

open Partial FreeRun

variable {k k' k₁ : Kernel} {process slot a b n q c : ℕ} {p : Process} {t : Task} {d : ℕ}
  {f e : ℕ → ℕ} {o : Obj} {L L' : ℕ → Option ℕ}

/-! ## The layout -/

/-- A structure without what the kernel changes while the structure stays where it is : the keys
and the arguments of a process, the registers and the neighbours of a task, the entries of a page
table. -/
def Obj.layout : Obj → Obj
  | .process p => .process { p with
      filename := [], size := 0, keyboard := ⟨fun _ => 0, 0, 0⟩, arguments := ⟨0, 0⟩ }
  | .task t => .task { t with registers := Task.zero.registers, next := 0, prev := 0 }
  | .chunk d => .chunk d
  | .directory f => .directory f
  | .table _ => .table fun _ => 0

/-- The heap, the table of processes and the layout of the structures. -/
def Kernel.layout (k : Kernel) : Kernel := { Kernel.empty with
  heapTable := k.heapTable
  store := fun a => (k.store a).map Obj.layout
  processes := k.processes
  currentProcess := k.currentProcess }

/-- What looks like a process is one, with other data that does not matter. -/
theorem Obj.layout_process (h : o.layout = (Obj.process p).layout) :
    ∃ filename size keyboard arguments, o = .process { p with
      filename := filename, size := size, keyboard := keyboard, arguments := arguments } := by
  cases o with
  | process p' =>
    obtain ⟨pid, filename, task, allocations, filetype, data, stack, size, keyboard,
      arguments⟩ := p'
    refine ⟨filename, size, keyboard, arguments, ?_⟩
    simp only [layout, process.injEq, Process.mk.injEq] at h ⊢
    simp [h]
  | _ => simp [layout] at h

/-- What looks like a task is one. -/
theorem Obj.layout_task (h : o.layout = (Obj.task t).layout) :
    ∃ registers next prev,
      o = .task { t with registers := registers, next := next, prev := prev } := by
  cases o with
  | task t' =>
    obtain ⟨pageDirectory, registers, process, next, prev⟩ := t'
    refine ⟨registers, next, prev, ?_⟩
    simp only [layout, task.injEq, Task.mk.injEq] at h ⊢
    simp [h]
  | _ => simp [layout] at h

/-- What looks like a space is that space. -/
theorem Obj.layout_chunk (h : o.layout = (Obj.chunk d).layout) : o = .chunk d := by
  cases o with
  | chunk => exact h
  | _ => simp [layout] at h

/-- What looks like a directory is that directory. -/
theorem Obj.layout_directory (h : o.layout = (Obj.directory f).layout) : o = .directory f := by
  cases o with
  | directory => exact h
  | _ => simp [layout] at h

/-- What looks like a page table is some page table. -/
theorem Obj.layout_table {g : ℕ → ℕ} (h : o.layout = (Obj.table g).layout) :
    ∃ g', o = .table g' := by
  cases o with
  | table g' => exact ⟨g', rfl⟩
  | _ => simp [layout] at h

/-- The structure at `a` stays where it is. -/
def Kernel.SamePlace (k k' : Kernel) (a : ℕ) : Prop :=
  (k'.store a).map Obj.layout = (k.store a).map Obj.layout

/-- The same structure looks the same. -/
theorem Kernel.SamePlace.of_eq (h : k'.store a = k.store a) : k.SamePlace k' a :=
  congrArg (Option.map Obj.layout) h

/-- With the layout every place is the same. -/
theorem Kernel.SamePlace.of_layout (h : k'.layout = k.layout) : k.SamePlace k' a :=
  show k'.layout.store a = k.layout.store a by rw [h]

/-- The table of the heap is in the layout. -/
theorem Kernel.heapTable_of_layout (h : k'.layout = k.layout) : k'.heapTable = k.heapTable :=
  show k'.layout.heapTable = k.layout.heapTable by rw [h]

/-- So is the table of processes. -/
theorem Kernel.processes_of_layout (h : k'.layout = k.layout) : k'.processes = k.processes :=
  show k'.layout.processes = k.layout.processes by rw [h]

/-- And the current process. -/
theorem Kernel.currentProcess_of_layout (h : k'.layout = k.layout) :
    k'.currentProcess = k.currentProcess :=
  show k'.layout.currentProcess = k.layout.currentProcess by rw [h]

theorem Kernel.SamePlace.trans {k'' : Kernel} (h : k.SamePlace k' a) (h' : k'.SamePlace k'' a) :
    k.SamePlace k'' a :=
  Eq.trans h' h

/-- There is still a structure that looks the same. -/
theorem Kernel.SamePlace.exists_obj (h : k.SamePlace k' a) (ho : k.store a = some o) :
    ∃ o', k'.store a = some o' ∧ o'.layout = o.layout := by
  unfold SamePlace at h
  rw [ho, Option.map_some] at h
  exact Option.map_eq_some_iff.mp h

/-- A `next` pointer is not part of the layout. -/
theorem Kernel.setNext_samePlace (k : Kernel) (q c a : ℕ) : k.SamePlace (k.setNext q c) a := by
  by_cases hq : a = q
  · subst hq
    by_cases ht : ∃ t, k.store a = some (.task t)
    · obtain ⟨t, ht⟩ := ht
      by_cases h0 : a = 0
      · rw [h0, Kernel.setNext_null]
        exact .of_eq rfl
      · rw [SamePlace, Kernel.setNext_store_self h0 ht, ht]
        rfl
    · rw [Kernel.setNext_of_not_task fun t h => ht ⟨t, h⟩]
      exact .of_eq rfl
  · exact .of_eq (k.setNext_store hq)

/-! ## A process and what it has -/

/-- The process in slot `slot` with its allocations, each of which is taken, is its own and is
apart from the rest of what it has. -/
structure Living (L : ℕ → Option ℕ) (k : Kernel) (process slot : ℕ) (p : Process) (t : Task)
    (d : ℕ) (f e : ℕ → ℕ) : Prop extends Resident L k process slot p t d f e where
  recorded : ∀ i < maxProgramAllocations, (p.allocations i).ptr ≠ 0 →
    L (p.allocations i).ptr = some process ∧
      k.Owns (p.allocations i).ptr (requestBlocks (p.allocations i).size)
  apart : ∀ a, p.Pointer process t d f a → ¬p.Recorded a
  distinct : ∀ i < maxProgramAllocations, ∀ j < maxProgramAllocations, (p.allocations i).ptr ≠ 0 →
    (p.allocations i).ptr = (p.allocations j).ptr → i = j

namespace Living

/-- A living process holds what belongs to it. -/
theorem holds (h : Living L k process slot p t d f e) : Holds L k process p t d f e where
  at_process := h.at_process
  space a ha := ⟨(h.owned a (.space ha)).1, .inl (h.owned a (.space ha)).2⟩
  owned := h.recorded
  apart a ha := h.apart a (.space ha)
  distinct := h.distinct

/-- Its recorded allocations are owned and in its name. -/
theorem owns_recorded (h : Living L k process slot p t d f e) (ha : p.Recorded a) :
    L a = some process ∧ ∃ n, k.Owns a n :=
  h.holds.owns_recorded ha

/-- A process that has allocated nothing. -/
theorem of_resident (h : Resident L k process slot p t d f e)
    (hempty : ∀ i, p.allocations i = ⟨0, 0⟩) :
    Living L k process slot p t d f e := by
  have hnone {i : ℕ} : ¬(p.allocations i).ptr ≠ 0 := by
    rw [hempty]
    exact fun h0 => h0 rfl
  refine ⟨h, fun i _ h0 => absurd h0 hnone, fun a _ hrec => ?_, fun i _ _ _ h0 => absurd h0 hnone⟩
  obtain ⟨h0, i, -, he⟩ := hrec
  exact hnone (he.trans_ne h0)

/-- The structures stay where they are and what the process has stays allocated. -/
theorem frame (h : Living L k process slot p t d f e)
    (hplace : ∀ a n, L a = some process → k.Owns a n → k.SamePlace k' a)
    (howns : ∀ a n, L a = some process → k.Owns a n → L' a = some process ∧ k'.Owns a n) :
    ∃ p' t' e', Living L' k' process slot p' t' d f e' := by
  have hat := h.at_process
  have hspace {a : ℕ} {o : Obj} (ha : ProcessPointer process p t d f a) (ho : k.store a = some o) :
      ∃ o', k'.store a = some o' ∧ o'.layout = o.layout := by
    obtain ⟨hL, n, hn⟩ := h.owned a (.space ha)
    exact (hplace a n hL hn).exists_obj ho
  obtain ⟨_, hself, ho⟩ := hspace .self hat.self
  obtain ⟨filename, size, keyboard, arguments, rfl⟩ := Obj.layout_process ho
  obtain ⟨_, htask, ho⟩ := hspace .task hat.task
  obtain ⟨registers, next, prev, rfl⟩ := Obj.layout_task ho
  obtain ⟨_, hchunk, ho⟩ := hspace .chunk hat.maps.chunk
  obtain rfl := Obj.layout_chunk ho
  obtain ⟨_, hdirectory, ho⟩ := hspace .directory hat.maps.directory
  obtain rfl := Obj.layout_directory ho
  have htable (i : ℕ) (hi : i < 1024) : ∃ g, k'.store (entryAddress (f i)) = some (.table g) := by
    obtain ⟨g, hg, -⟩ := hat.maps.table i hi
    obtain ⟨_, hg', ho⟩ := hspace (.table hi) hg
    obtain ⟨g', rfl⟩ := Obj.layout_table ho
    exact ⟨g', hg'⟩
  choose! g hg using htable
  have hmaps : Maps k' t.pageDirectory d f fun i => g (i / 1024) (i % 1024) := by
    refine ⟨hat.maps.chunk_ne, hat.maps.directory_ne, hat.maps.table_ne, hat.maps.inj, hchunk,
      hdirectory, fun i hi => ⟨g i, hg i hi, fun j hj => ?_⟩⟩
    have hdiv : (1024 * i + j) / 1024 = i := by omega
    have hmod : (1024 * i + j) % 1024 = j := by omega
    simp only [hdiv, hmod]
  set p' : Process := { p with
    filename := filename, size := size, keyboard := keyboard, arguments := arguments } with hp'
  set t' : Task := { t with registers := registers, next := next, prev := prev } with ht'
  have hspace' {a : ℕ} (ha : ProcessPointer process p' t' d f a) :
      ProcessPointer process p t d f a := by
    cases ha with
    | self => exact .self
    | task => exact .task
    | chunk => exact .chunk
    | directory => exact .directory
    | table hi => exact .table hi
  have hdata {a : ℕ} (ha : p'.DataPointer a) : p.DataPointer a := by
    cases ha with
    | ptr ha => exact .ptr ha
    | elfSelf ha => exact .elfSelf ha
    | elfMemory ha => exact .elfMemory ha
  have hpointer {a : ℕ} (ha : p'.Pointer process t' d f a) : p.Pointer process t d f a := by
    cases ha with
    | space ha => exact .space (hspace' ha)
    | data ha => exact .data (hdata ha)
    | stack => exact .stack
  refine ⟨p', t', _, ⟨⟨hat.ne_zero, hat.task_ne, hself, htask, hmaps⟩, h.pid, h.owner, h.typed,
    fun a ha hp => h.data a (hdata ha) (hspace' hp), fun hp => h.stack (hspace' hp),
      fun a ha => ?_⟩,
    fun i hi h0 => ?_, fun a ha => h.apart a (hpointer ha), h.distinct⟩
  · obtain ⟨hL, n, hn⟩ := h.owned a (hpointer ha)
    exact ⟨(howns a n hL hn).1, n, (howns a n hL hn).2⟩
  · obtain ⟨hL, hn⟩ := h.recorded i hi h0
    exact howns _ _ hL hn

/-- A process that has just been loaded. -/
theorem of_loaded (h : Loaded k k₁ process slot p t d f e) (L : ℕ → Option ℕ) :
    Living (ledgerFor L k process) k₁ process slot p t d f e :=
  of_resident (h.resident L) h.allocations

/-- Without them it is resident. -/
theorem resident_without (h : Living L k process slot p t d f e) :
    Resident L (k.without p.Recorded) process slot p t d f e :=
  { h.toResident with
    at_process := h.at_process.congr fun _ _ => rfl
    owned := fun a ha => by
      obtain ⟨hL, n, hn⟩ := h.owned a ha
      exact ⟨hL, n, hn.without (h.apart a ha)⟩ }

/-- The state in which all that the process has is free. -/
noncomputable def base (k : Kernel) (process : ℕ) (p : Process) (t : Task) (d : ℕ) (f : ℕ → ℕ) :
    Kernel :=
  (k.without p.Recorded).without (p.Freed process t d f)

/-- What belongs to others is not freed. -/
theorem owns_base (h : Living L k process slot p t d f e) (hL : L a ≠ some process)
    (ha : k.Owns a n) : (base k process p t d f).Owns a n := by
  have hrec : ¬p.Recorded a := fun hrec => hL (h.owns_recorded hrec).1
  exact (ha.without hrec).without fun hF => hL (h.owned a hF.1).1

/-- It ends as any process does, its allocations freed first. -/
theorem terminate_meets (hg : Guarded k.table) (h : Living L k process slot p t d f e) :
    Meets False (processTerminate process) k fun res k' =>
      res = 0 ∧ Terminated (base k process p t d f) k k' process p t :=
  processTerminate_meets (Kernel.without_guarded (Kernel.without_guarded hg))
    (Kernel.without_keeps _ _) h.holds.allocState h.resident_without.ownData False.elim

/-- The end of a process leaves the others. -/
theorem terminated {process' slot' d' : ℕ} {p' : Process} {t' : Task} {f' e' : ℕ → ℕ}
    (h : Living L k process slot p t d f e) (h' : Living L k process' slot' p' t' d' f' e')
    (hne : process ≠ process')
    (hend : Terminated (base k process' p' t' d' f') k k' process' p' t') :
    ∃ p₁ t₁ e₁, Living L k' process slot p₁ t₁ d f e₁ := by
  have hother {a : ℕ} (hL : L a = some process) : L a ≠ some process' := fun hL' =>
    hne (Option.some.inj (hL.symm.trans hL'))
  refine h.frame (fun a n hL ho => ?_) fun a n hL ho => ⟨hL, ?_⟩
  · refine (k.setNext_samePlace t'.prev t'.next a).trans (.of_eq ?_)
    refine hend.store a ho.ne_zero (h'.owns_base (hother hL) ho).not_fresh fun he => ?_
    exact hother hL (he ▸ (h'.owned process' (.space .self)).1)
  · obtain ⟨b, rfl, hb⟩ := h'.owns_base (hother hL) ho
    exact ⟨b, rfl, hend.keeps.held hb⟩

end Living

/-! ## `process_malloc` and `process_free` -/

section Calls

variable {call : AllocCall} {res : ℕ} {al al' : ℕ → ProcessAllocation} {e' : ℕ → ℕ}

/-- A record that is there after a call was there before, or is of a block that was free. -/
theorem AllocEffect.recorded (h : AllocEffect k k' p.allocations e call res al e')
    (ha : (p.withRecords al).Recorded a) : p.Recorded a ∨ k.Fresh a := by
  obtain ⟨h0, i, hi, he⟩ := ha
  cases h with
  | nothing => exact .inl ⟨h0, i, hi, he⟩
  | refused => exact .inl ⟨h0, i, hi, he⟩
  | served hb =>
    simp only [Process.withRecords] at he
    split_ifs at he
    · exact .inr (he ▸ hb.fresh)
    · exact .inl ⟨h0, i, hi, he⟩
  | freed =>
    simp only [Process.withRecords] at he
    split_ifs at he
    · exact absurd he.symm h0
    · exact .inl ⟨h0, i, hi, he⟩

namespace Living

/-- A call by the process itself. -/
theorem step (hg : Guarded k.table) (h : Living L k process slot p t d f e)
    (hstep : AllocStep k ⟨process, call, res⟩ k') (hc : call.Reserves k process) :
    ∃ al e', Living (ledgerFor L k process) k' process slot (p.withRecords al) t d f e' := by
  obtain ⟨al, e', heffect, hholds⟩ := h.holds.step hg hstep hc
  have hspace {a : ℕ} (ha : ProcessPointer process (p.withRecords al) t d f a) :
      ProcessPointer process p t d f a := ProcessPointer.withRecords.mp ha
  have hdata {a : ℕ} (ha : (p.withRecords al).DataPointer a) : p.DataPointer a := by
    cases ha with
    | ptr ha => exact .ptr ha
    | elfSelf ha => exact .elfSelf ha
    | elfMemory ha => exact .elfMemory ha
  have hpointer {a : ℕ} (ha : (p.withRecords al).Pointer process t d f a) :
      p.Pointer process t d f a := by
    cases ha with
    | space ha => exact .space (hspace ha)
    | data ha => exact .data (hdata ha)
    | stack => exact .stack
  refine ⟨al, e', ⟨hholds.at_process, h.pid, h.owner, h.typed,
    fun a ha hp => h.data a (hdata ha) (hspace hp), fun hp => h.stack (hspace hp), fun a ha => ?_⟩,
    hholds.owned, fun a ha hrec => ?_, hholds.distinct⟩
  · obtain ⟨hL, n, hn⟩ := h.owned a (hpointer ha)
    refine ⟨(ledgerFor_of_not_fresh hn.not_fresh).trans hL, n, ?_⟩
    refine heffect.owns hg (fun i hi h0 => ⟨_, (h.recorded i hi h0).2⟩) hn fun i hi _ he => ?_
    exact h.apart a (hpointer ha) ⟨hn.ne_zero, i, hi, he.symm⟩
  · obtain ⟨-, n, hn⟩ := h.owned a (hpointer ha)
    rcases heffect.recorded hrec with hrec | hfresh
    · exact h.apart a (hpointer ha) hrec
    · exact hn.not_fresh hfresh

/-- A call by another process. -/
theorem step_other {process' slot' d' : ℕ} {p' : Process} {t' : Task} {f' e' : ℕ → ℕ}
    (hg : Guarded k.table) (h : Living L k process slot p t d f e)
    (h' : Living L k process' slot' p' t' d' f' e') (hne : process ≠ process')
    (hstep : AllocStep k ⟨process', call, res⟩ k') :
    ∃ p₁ t₁ e₁, Living (ledgerFor L k process') k' process slot p₁ t₁ d f e₁ := by
  obtain ⟨al, e₂, heffect, hstate, hstore, -⟩ :=
    h'.holds.allocState.step (Kernel.without_guarded hg) hstep
  have hother {a : ℕ} (hL : L a = some process) : L a ≠ some process' := fun hL' =>
    hne (Option.some.inj (hL.symm.trans hL'))
  refine h.frame (fun a n hL ho => .of_eq ?_) fun a n hL ho =>
    ⟨(ledgerFor_of_not_fresh ho.not_fresh).trans hL, ?_⟩
  · refine hstore a ho.ne_zero ?_ fun hp => hother hL (h'.owned a (.space hp)).1
    exact (ho.without fun hrec => hother hL (h'.owns_recorded hrec).1).not_fresh
  · refine heffect.owns hg (fun i hi h0 => ⟨_, (h'.recorded i hi h0).2⟩) ho fun i hi _ he => ?_
    have h0 : (p'.allocations i).ptr ≠ 0 := he ▸ ho.ne_zero
    exact hother hL (he ▸ (h'.recorded i hi h0).1)

end Living

end Calls

/-! ## All processes -/

/-- A process in the table. -/
def Kernel.Registered (k : Kernel) (process : ℕ) : Prop :=
  process ≠ 0 ∧ ∃ i < maxProcesses, k.processes i = process

/-- The processes in the table live, each with what the ledger `L` gives to it, and the current
process is in the table. -/
structure Population (L : ℕ → Option ℕ) (k : Kernel) : Prop where
  guarded : Guarded k.table
  living : ∀ i < maxProcesses, k.processes i ≠ 0 → ∃ p t d f e,
    Living L k (k.processes i) i p t d f e
  current : k.currentProcess ≠ 0 → k.Registered k.currentProcess

/-- The kernel with the processes it has. -/
def Kernel.Populated (k : Kernel) : Prop := ∃ L, Population L k

namespace Population

/-- An empty table is a population. -/
theorem of_noProcesses (h : NoProcesses k) : Population (fun _ => none) k :=
  ⟨h.guarded, fun i hi hne => absurd (h.processes i hi) hne, fun hne => absurd h.currentProcess hne⟩

/-- No process lives in two slots. -/
theorem distinct (h : Population L k) {i j : ℕ} (hi : i < maxProcesses) (hj : j < maxProcesses)
    (hne : k.processes i ≠ 0) (he : k.processes i = k.processes j) : i = j := by
  obtain ⟨p, t, d, f, e, hp⟩ := h.living i hi hne
  obtain ⟨p', t', d', f', e', hp'⟩ := h.living j hj (he ▸ hne)
  have hself := hp'.at_process.self
  rw [← he] at hself
  rw [← hp.pid, ← hp'.pid, hp.at_process.unique hself]

/-- A process in the table is alive. -/
theorem of_registered (h : Population L k) (hr : k.Registered process) : ∃ slot < maxProcesses,
    k.processes slot = process ∧ ∃ p t d f e, Living L k process slot p t d f e := by
  obtain ⟨hne, i, hi, rfl⟩ := hr
  exact ⟨i, hi, rfl, h.living i hi hne⟩

/-- The processes are left as they are. -/
theorem frame (h : Population L k) (hg : Guarded k'.table)
    (hplace : ∀ a n, k.Owns a n → k.SamePlace k' a) (howns : ∀ a n, k.Owns a n → k'.Owns a n)
    (hprocs : k'.processes = k.processes) (hcur : k'.currentProcess = k.currentProcess) :
    Population L k' := by
  refine ⟨hg, fun i hi hne => ?_, ?_⟩
  · rw [hprocs] at hne ⊢
    obtain ⟨p, t, d, f, e, hp⟩ := h.living i hi hne
    obtain ⟨p', t', e', hp'⟩ := hp.frame (fun a n _ => hplace a n) fun a n hL ho =>
      ⟨hL, howns a n ho⟩
    exact ⟨p', t', d, f, e', hp'⟩
  · unfold Kernel.Registered
    rw [hprocs, hcur]
    exact h.current

/-- A process is loaded and switched to. -/
theorem load (h : Population L k) (hslot : FirstFreeSlot k.processes slot)
    (hl : Loaded k k₁ process slot p t d f e) :
    Population (ledgerFor L k process) { k₁ with currentProcess := process } := by
  have hprocs : k₁.processes = fun i => if i = slot then process else k.processes i :=
    Kernel.processes_of_globals hl.globals
  have hself : k₁.processes slot = process := by
    rw [hprocs]
    exact if_pos rfl
  set kₛ : Kernel := { k₁ with currentProcess := process }
  refine ⟨hl.guarded h.guarded, fun i hi hne => ?_,
    fun _ => ⟨hl.at_process.ne_zero, slot, hslot.lt, hself⟩⟩
  have hne' : k₁.processes i ≠ 0 := hne
  show ∃ p t d f e, Living _ _ (k₁.processes i) i p t d f e
  by_cases his : i = slot
  · have hnew : ∃ p' t' e', Living (ledgerFor L k process) kₛ process slot p' t' d f e' :=
      (Living.of_loaded hl L).frame (fun _ _ _ _ => .of_eq rfl) fun _ _ hL ho => ⟨hL, ho⟩
    obtain ⟨p', t', e', hp'⟩ := hnew
    rw [his, hself]
    exact ⟨p', t', d, f, e', hp'⟩
  · have hi' : k₁.processes i = k.processes i := by
      rw [hprocs]
      exact if_neg his
    rw [hi'] at hne' ⊢
    obtain ⟨p₁, t₁, d₁, f₁, e₁, hp₁⟩ := h.living i hi hne'
    have howns {a n : ℕ} (ho : k.Owns a n) : (k.setNext k.listEnd p.task).Owns a n :=
      ho.of_table (by simp)
    have hplace {a n : ℕ} (ho : k.Owns a n) : k.SamePlace kₛ a :=
      (k.setNext_samePlace _ _ a).trans (.of_eq (hl.ext.store_of_owns (howns ho)))
    have hold : ∃ p' t' e', Living (ledgerFor L k process) kₛ (k.processes i) i p' t' d₁ f₁ e' :=
      hp₁.frame (fun a n _ ho => hplace ho) fun a n hL ho =>
        ⟨(ledgerFor_of_not_fresh ho.not_fresh).trans hL, hl.ext.owns (howns ho)⟩
    obtain ⟨p', t', e', hp'⟩ := hold
    exact ⟨p', t', d₁, f₁, e', hp'⟩

/-- A process ends. -/
theorem terminate (h : Population L k) (hp : Living L k process slot p t d f e)
    (hslot : slot < maxProcesses) (hself : k.processes slot = process)
    (hend : Terminated (Living.base k process p t d f) k k' process p t) : Population L k' := by
  obtain ⟨c, hc, hglob⟩ := hend.globals
  have hprocs : k'.processes = fun i => if i = p.pid then 0 else k.processes i :=
    Kernel.processes_of_globals hglob
  have hcur : k'.currentProcess = c := Kernel.currentProcess_of_globals hglob
  have hother {i : ℕ} (hi : i ≠ slot) : k'.processes i = k.processes i := by
    rw [hprocs, hp.pid]
    exact if_neg hi
  have hguard : Guarded (Living.base k process p t d f).table :=
    Kernel.without_guarded (Kernel.without_guarded h.guarded)
  refine ⟨hend.keeps.guarded hguard, fun i hi hne => ?_, ?_⟩
  · have his : i ≠ slot := by
      rintro rfl
      rw [hprocs, hp.pid] at hne
      exact hne (if_pos rfl)
    rw [hother his] at hne ⊢
    obtain ⟨p₁, t₁, d₁, f₁, e₁, hp₁⟩ := h.living i hi hne
    have hdiff : k.processes i ≠ process := fun he =>
      his (h.distinct hi hslot hne (he.trans hself.symm))
    obtain ⟨p', t', e', hp'⟩ := hp₁.terminated hp hdiff hend
    exact ⟨p', t', d₁, f₁, e', hp'⟩
  · rw [hcur]
    cases hc with
    | other hne =>
      intro hcur0
      obtain ⟨h0, i, hi, he⟩ := h.current hcur0
      have his : i ≠ slot := by
        rintro rfl
        exact hne (he.symm.trans hself)
      exact ⟨h0, i, hi, (hother his).trans he⟩
    | @any i _ hi hip hne => exact fun _ => ⟨hne, i, hi, hother (hp.pid ▸ hip)⟩

/-- A process allocates or frees. -/
theorem step {call : AllocCall} {res : ℕ} (h : Population L k)
    (hp : Living L k process slot p t d f e) (hslot : slot < maxProcesses)
    (hself : k.processes slot = process) (hstep : AllocStep k ⟨process, call, res⟩ k')
    (hc : call.Reserves k process) : Population (ledgerFor L k process) k' := by
  obtain ⟨al, e₁, -, -, -, hglob⟩ :=
    hp.holds.allocState.step (Kernel.without_guarded h.guarded) hstep
  have hprocs : k'.processes = k.processes := (Kernel.processes_of_globals hglob).trans rfl
  have hcur : k'.currentProcess = k.currentProcess :=
    (Kernel.currentProcess_of_globals hglob).trans rfl
  refine ⟨hp.holds.step_guarded h.guarded hstep, fun i hi hne => ?_, ?_⟩
  · rw [hprocs] at hne ⊢
    by_cases his : k.processes i = process
    · obtain rfl := h.distinct hi hslot hne (his.trans hself.symm)
      obtain ⟨al, e', hp'⟩ := hp.step h.guarded hstep hc
      rw [his]
      exact ⟨_, t, d, f, e', hp'⟩
    · obtain ⟨p₁, t₁, d₁, f₁, e₁, hp₁⟩ := h.living i hi hne
      obtain ⟨p', t', e', hp'⟩ := hp₁.step_other h.guarded hp his hstep
      exact ⟨p', t', d₁, f₁, e', hp'⟩
  · unfold Kernel.Registered
    rw [hprocs, hcur]
    exact h.current

end Population

/-! ## How the memory is divided -/

/-- The process at `process` has what starts at `a`. -/
inductive Kernel.Reaches (k : Kernel) (process : ℕ) : ℕ → Prop
  | pointer {p : Process} {t : Task} {d : ℕ} {f e : ℕ → ℕ} {a : ℕ} :
      ProcessAt k process p t d f e → p.Pointer process t d f a → Reaches k process a
  | allocation {p : Process} {a : ℕ} :
      k.store process = some (.process p) → p.Recorded a → Reaches k process a

/-- All that the processes in the table have is allocated, and no two of the things that they have
overlap. The allocations are as long as they were asked for, and each is recorded once. -/
structure MemoryDivided (k : Kernel) : Prop where
  allocated : ∀ i < maxProcesses, k.processes i ≠ 0 → ∀ a, k.Reaches (k.processes i) a →
    ∃ n, k.Owns a n
  apart : ∀ i < maxProcesses, ∀ j < maxProcesses, k.processes i ≠ 0 → k.processes j ≠ 0 →
    ∀ a b n m, k.Reaches (k.processes i) a → k.Reaches (k.processes j) b → k.Owns a n → k.Owns b m →
    i ≠ j ∨ a ≠ b → a + 4096 * n ≤ b ∨ b + 4096 * m ≤ a
  records : ∀ i < maxProcesses, k.processes i ≠ 0 → ∃ p t d f e,
    ProcessAt k (k.processes i) p t d f e ∧
    (∀ a, p.Pointer (k.processes i) t d f a → ¬p.Recorded a) ∧
    (∀ r < maxProgramAllocations, (p.allocations r).ptr ≠ 0 →
      k.Owns (p.allocations r).ptr (requestBlocks (p.allocations r).size) ∧
      ∀ r' < maxProgramAllocations, (p.allocations r).ptr = (p.allocations r').ptr → r = r')

/-- What starts at different addresses does not overlap. -/
theorem Kernel.Owns.apart {m : ℕ} (h : k.Owns a n) (h' : k.Owns b m) (hne : a ≠ b) :
    a + 4096 * n ≤ b ∨ b + 4096 * m ≤ a := by
  obtain ⟨s, rfl, hs⟩ := h
  obtain ⟨s', rfl, hs'⟩ := h'
  have hdisjoint := hs.disjoint hs' fun he => hne (congrArg blockAddr he)
  unfold blockAddr
  omega

/-- The structures of a process are determined. -/
theorem ProcessAt.unique_space {p' : Process} {t' : Task} {d' : ℕ} {f' e' : ℕ → ℕ}
    (h : ProcessAt k process p t d f e) (h' : ProcessAt k process p' t' d' f' e') :
    p' = p ∧ t' = t ∧ d' = d ∧ f' = f := by
  obtain rfl := h.unique h'.self
  have htask := h'.task
  rw [h.task, Option.some_inj, Obj.task.injEq] at htask
  subst htask
  have hchunk := h'.maps.chunk
  rw [h.maps.chunk, Option.some_inj, Obj.chunk.injEq] at hchunk
  subst hchunk
  have hdirectory := h'.maps.directory
  rw [h.maps.directory, Option.some_inj, Obj.directory.injEq] at hdirectory
  exact ⟨rfl, rfl, rfl, hdirectory.symm⟩

/-- The ledger gives what a process has to it. -/
theorem Living.reaches (h : Living L k process slot p t d f e) (ha : k.Reaches process a) :
    L a = some process ∧ ∃ n, k.Owns a n := by
  cases ha with
  | pointer hat ha =>
    obtain ⟨rfl, rfl, rfl, rfl⟩ := h.at_process.unique_space hat
    exact h.owned a ha
  | @allocation p' _ hself hrec =>
    obtain rfl := h.at_process.unique hself
    exact h.owns_recorded hrec

/-- The memory of a population is divided. -/
theorem Population.divided (h : Population L k) : MemoryDivided k where
  allocated i hi hne a ha := by
    obtain ⟨p, t, d, f, e, hp⟩ := h.living i hi hne
    exact (hp.reaches ha).2
  apart i hi j hj hne hne' a b n m ha hb hn hm hor := by
    refine hn.apart hm fun he => ?_
    obtain ⟨p, t, d, f, e, hp⟩ := h.living i hi hne
    obtain ⟨p', t', d', f', e', hp'⟩ := h.living j hj hne'
    have hL := (hp.reaches ha).1
    rw [he, (hp'.reaches hb).1] at hL
    have hij := h.distinct hi hj hne (Option.some.inj hL).symm
    exact hor.elim (fun h => h hij) fun h => h he
  records i hi hne := by
    obtain ⟨p, t, d, f, e, hp⟩ := h.living i hi hne
    exact ⟨p, t, d, f, e, hp.at_process, hp.apart, fun r hr h0 =>
      ⟨(hp.recorded r hr h0).2, fun r' hr' => hp.distinct r hr r' hr' h0⟩⟩

/-- Its table is consistent. -/
theorem Population.consistent (h : Population L k) : TableConsistent k where
  slot i hi hne := by
    obtain ⟨p, t, d, f, e, hp⟩ := h.living i hi hne
    exact ⟨p, t, hp.at_process.self, hp.pid, hp.at_process.task, hp.owner⟩
  distinct i hi j hj hne he := h.distinct hi hj hne he
  current hne := by
    obtain ⟨i, hi, he, p, t, d, f, e, hp⟩ := h.of_registered (h.current hne)
    exact ⟨p, hp.at_process.self, hp.pid ▸ hi, hp.pid ▸ he⟩

/-- It is all in the layout. -/
theorem Kernel.Populated.of_layout (h : k.Populated) (hl : k'.layout = k.layout) :
    k'.Populated := by
  obtain ⟨L, hL⟩ := h
  have htable : k'.table = k.table := by
    simp [Kernel.table, Kernel.heap, Kernel.heapTable_of_layout hl]
  exact ⟨L, hL.frame (htable ▸ hL.guarded) (fun a n _ => .of_layout hl)
    (fun a n ho => ho.of_table htable) (Kernel.processes_of_layout hl)
    (Kernel.currentProcess_of_layout hl)⟩

/-! ## The process that runs -/

/-- The current task, if there is one, is the task of a process in the table. -/
def Kernel.Running (k : Kernel) : Prop := k.currentTask ≠ 0 → ∃ process p,
  k.Registered process ∧ k.store process = some (.process p) ∧ p.task = k.currentTask

/-- The processes in the table stay there, with their tasks. -/
def Kernel.KeepsTasks (k k' : Kernel) : Prop :=
  ∀ process p, k.Registered process → k.store process = some (.process p) →
    k'.Registered process ∧ ∃ p', k'.store process = some (.process p') ∧ p'.task = p.task

/-- Processes that look the same have the same tasks. -/
theorem Kernel.KeepsTasks.of_place (hprocs : k'.processes = k.processes)
    (hplace : ∀ process, k.Registered process → k.SamePlace k' process) : k.KeepsTasks k' := by
  intro process p hr hp
  obtain ⟨_, hp', ho⟩ := (hplace process hr).exists_obj hp
  obtain ⟨filename, size, keyboard, arguments, rfl⟩ := Obj.layout_process ho
  refine ⟨?_, _, hp', rfl⟩
  unfold Kernel.Registered
  rw [hprocs]
  exact hr

/-- Tasks of processes are in the layout. -/
theorem Kernel.KeepsTasks.of_layout (h : k'.layout = k.layout) : k.KeepsTasks k' :=
  .of_place (Kernel.processes_of_layout h) fun _ _ => .of_layout h

/-- The current task goes on if its process keeps its task. -/
theorem Kernel.Running.keeps (h : k.Running) (ht : k.KeepsTasks k')
    (hcur : k'.currentTask ≠ 0 → k'.currentTask = k.currentTask) : k'.Running := by
  intro hne
  rw [hcur hne]
  obtain ⟨process, p, hr, hp, he⟩ := h ((hcur hne).symm.trans_ne hne)
  obtain ⟨hr', p', hp', he'⟩ := ht process p hr hp
  exact ⟨process, p', hr', hp', he'.trans he⟩

/-- The processes live, and one of them runs if there is a task at all. -/
structure Kernel.Alive (k : Kernel) : Prop where
  populated : k.Populated
  running : k.Running

namespace Kernel.Alive

/-- The current task leads to a process in the table. -/
theorem registered (h : k.Alive) (h0 : k.currentTask ≠ 0)
    (ht : k.store k.currentTask = some (.task t)) : k.Registered t.process := by
  obtain ⟨L, hL⟩ := h.populated
  obtain ⟨process, p, hr, hp, he⟩ := h.running h0
  obtain ⟨i, hi, -, p', t', d, f, e, hlive⟩ := hL.of_registered hr
  obtain rfl := hlive.at_process.unique hp
  have htask := hlive.at_process.task
  rw [he, ht, Option.some_inj, Obj.task.injEq] at htask
  rw [htask, hlive.owner]
  exact hr

/-- The current task is not in free memory. -/
theorem not_fresh (h : k.Alive) (h0 : k.currentTask ≠ 0) : ¬k.Fresh k.currentTask := by
  obtain ⟨L, hL⟩ := h.populated
  obtain ⟨process, p, hr, hp, he⟩ := h.running h0
  obtain ⟨i, hi, -, p', t', d, f, e, hlive⟩ := hL.of_registered hr
  obtain rfl := hlive.at_process.unique hp
  obtain ⟨-, n, hn⟩ := hlive.owned p'.task (.space .task)
  exact he ▸ hn.not_fresh

/-- The structure of a process in the table is owned. -/
theorem owns_self (h : k.Populated) (hr : k.Registered process) : ∃ n, k.Owns process n := by
  obtain ⟨L, hL⟩ := h
  obtain ⟨i, hi, -, p, t, d, f, e, hlive⟩ := hL.of_registered hr
  exact (hlive.owned process (.space .self)).2

/-- What stays allocated and in its place stays alive. -/
theorem frame (h : k.Alive) (hg : Guarded k.table → Guarded k'.table)
    (hplace : ∀ a n, k.Owns a n → k.SamePlace k' a) (howns : ∀ a n, k.Owns a n → k'.Owns a n)
    (hprocs : k'.processes = k.processes) (hcur : k'.currentProcess = k.currentProcess)
    (htask : k'.currentTask ≠ 0 → k'.currentTask = k.currentTask) : k'.Alive := by
  obtain ⟨L, hL⟩ := h.populated
  refine ⟨⟨L, hL.frame (hg hL.guarded) hplace howns hprocs hcur⟩,
    h.running.keeps (.of_place hprocs fun process hr => ?_) htask⟩
  obtain ⟨n, hn⟩ := owns_self h.populated hr
  exact hplace process n hn

/-- What keeps the layout keeps the processes alive. -/
theorem of_layout (h : k.Alive) (hl : k'.layout = k.layout)
    (htask : k'.currentTask = k.currentTask) : k'.Alive := by
  exact ⟨h.populated.of_layout hl, h.running.keeps (.of_layout hl) fun _ => htask⟩

/-- A failed load takes nothing from the current task. -/
theorem currentTask_of_failed (h : k.Alive) (hb : LoadFailed k b k')
    (hne : k'.currentTask ≠ 0) : k'.currentTask = k.currentTask := by
  obtain ⟨p, ⟨-, hglob⟩ | ⟨task, t, hf, hnext, -, -, hglob⟩⟩ := hb.left
  · exact Kernel.currentTask_of_globals hglob
  · have hcur : k'.currentTask = if task = (if k.taskHead = 0 then task else k.currentTask) then
        (if t.next = 0 then
          if task = (if k.taskHead = 0 then task else k.taskHead) then t.next
          else if k.taskHead = 0 then task else k.taskHead
        else t.next)
      else if k.taskHead = 0 then task else k.currentTask := congrArg Kernel.currentTask hglob
    by_cases h0 : k.taskHead = 0
    · have hend : t.next = 0 := hnext.resolve_left fun hend =>
        hend.ne_zero (show (if k.taskHead = 0 then 0 else k.taskTail) = 0 from if_pos h0)
      rw [if_pos h0, if_pos h0, if_pos rfl, if_pos rfl, hend, ite_self] at hcur
      exact absurd hcur hne
    · rw [if_neg h0, if_neg h0] at hcur
      have hother : task ≠ k.currentTask := by
        rintro rfl
        exact h.not_fresh hf.ne_zero (hb.answers.ext.fresh hf)
      rw [hcur, if_neg hother]

/-- A load. -/
theorem load {filename : List UInt8} (h : k.Alive) :
    Meets False (processLoadSwitch filename) k fun x k' =>
      k'.Alive ∧ (0 ≤ x.1 → k'.Registered x.2) := by
  obtain ⟨L, hL⟩ := h.populated
  refine (processLoadSwitch_meets hL.guarded).mono ?_
  rintro ⟨res, process⟩ k' (⟨hneg, rfl, -⟩ | ⟨hneg, -, b, hb⟩ |
    ⟨k₁, slot, p, t, d, f, e, -, hslot, hl, rfl⟩)
  · exact ⟨h, fun hpos => absurd hneg (not_lt.mpr hpos)⟩
  · obtain ⟨q, c, hext, hprocs, hcur⟩ := hb.extends
    have howns {a n : ℕ} (ho : k.Owns a n) : (k.setNext q c).Owns a n := ho.of_table (by simp)
    refine ⟨h.frame (fun hg => hext.keeps.guarded (by rwa [Kernel.setNext_table]))
      (fun a n ho => (k.setNext_samePlace q c a).trans (.of_eq (hext.store_of_owns (howns ho))))
      (fun a n ho => hext.owns (howns ho)) hprocs hcur (h.currentTask_of_failed hb),
      fun hpos => absurd hneg (not_lt.mpr hpos)⟩
  · have hpop := hL.load hslot hl
    have hprocs : k₁.processes = fun i => if i = slot then process else k.processes i :=
      Kernel.processes_of_globals hl.globals
    have hreg : Kernel.Registered { k₁ with currentProcess := process } process :=
      hpop.current hl.at_process.ne_zero
    have hcur : k₁.currentTask = if k.taskHead = 0 then p.task else k.currentTask :=
      congrArg Kernel.currentTask hl.globals
    refine ⟨⟨⟨_, hpop⟩, ?_⟩, fun _ => hreg⟩
    by_cases h0 : k.taskHead = 0
    · rw [if_pos h0] at hcur
      exact fun _ => ⟨process, p, hreg, hl.at_process.self, hcur.symm⟩
    · rw [if_neg h0] at hcur
      refine h.running.keeps (fun process' p' hr hp => ⟨?_, p', ?_, rfl⟩) fun _ => hcur
      · obtain ⟨hne, i, hi, rfl⟩ := hr
        have his : i ≠ slot := by
          rintro rfl
          exact hne hslot.free
        refine ⟨hne, i, hi, ?_⟩
        show k₁.processes i = _
        rw [hprocs]
        exact if_neg his
      · obtain ⟨n, hn⟩ := owns_self h.populated hr
        have hn' : (k.setNext k.listEnd p.task).Owns process' n := hn.of_table (by simp)
        refine (hl.ext.store_of_owns hn').trans ?_
        exact Kernel.setNext_store_of_not_task hp (by simp)

/-- A call of `process_malloc` or `process_free` by a process of the table. -/
theorem step {call : AllocCall} {res : ℕ} (h : k.Alive) (hr : k.Registered process)
    (hstep : AllocStep k ⟨process, call, res⟩ k') (hc : call.Reserves k process) :
    k'.Alive ∧ ∀ q, k.Registered q → k'.Registered q := by
  obtain ⟨L, hL⟩ := h.populated
  obtain ⟨i, hi, hself, p, t, d, f, e, hp⟩ := hL.of_registered hr
  obtain ⟨al, e', -, hstate, hstore, hglob⟩ :=
    hp.holds.allocState.step (Kernel.without_guarded hL.guarded) hstep
  have hkeep {q : ℕ} (hq : k.Registered q) : k'.Registered q := by
    unfold Kernel.Registered
    rw [(Kernel.processes_of_globals hglob).trans rfl]
    exact hq
  refine ⟨⟨⟨_, hL.step hp hi hself hstep hc⟩, h.running.keeps (fun q pq hq hpq => ⟨hkeep hq, ?_⟩)
    fun _ => Kernel.currentTask_of_globals hglob⟩, fun q => hkeep⟩
  by_cases hqp : q = process
  · subst hqp
    obtain rfl := hp.at_process.unique hpq
    exact ⟨_, hstate.at_process.self, rfl⟩
  · obtain ⟨j, hj, hjq, pq', tq, dq, fq, eq, hlive⟩ := hL.of_registered hq
    obtain ⟨hLq, n, hn⟩ := hlive.owned q (.space .self)
    have hother {a : ℕ} (ha : L a = some process) : a ≠ q := by
      rintro rfl
      rw [hLq] at ha
      exact hqp (Option.some.inj ha)
    refine ⟨pq, ?_, rfl⟩
    refine (hstore q hn.ne_zero ?_ fun ha => hother (hp.owned q (.space ha)).1 rfl).trans hpq
    exact (hn.without fun hrec => hother (hp.owns_recorded hrec).1 rfl).not_fresh

end Kernel.Alive

/-- The end of a process of the table. -/
theorem Kernel.Populated.terminate (h : k.Populated) (hr : k.Registered process) :
    Meets False (processTerminate process) k fun _ k' => k'.Populated := by
  obtain ⟨L, hL⟩ := h
  obtain ⟨i, hi, hself, p, t, d, f, e, hp⟩ := hL.of_registered hr
  exact (hp.terminate_meets hL.guarded).mono fun _ k' hend => ⟨L, hL.terminate hp hi hself hend.2⟩

end Hyperion
