import Hyperion.PlacedEnd
import Hyperion.ProcessTable

/-!
# Runs with every block known

The steps of the table of processes (`Hyperion.ProcessTable`) once more, with the blocks. A `Stage`
is what a step leaves for the next : the blocks that are free, the ends of the list of tasks, the
table and the current process. `Lives` is a process with its task in the list, and `EndedAt` what
the end of another one leaves of it.

A load adds a process and leaves the others, but for the `next` pointer of the last task
(`Stage.loads`, `Lives.loaded`). An end removes one (`Stage.terminates`). What it does to the others
depends on where the `prev` pointer of its task leads : to none of their blocks (`Lives.apart`), to
the task of one, which is relinked (`Housed.relinked`), or to a block that has been given to the
directory of one since, which is redirected (`Housed.redirected`). In the last case the directory
has the pointer to a task in entry 14 (`spacePointer_redirect`).
-/

namespace Hyperion

open Partial FreeRun

variable {k k' k₁ k₂ : Kernel} {x s y z n slot a b c d i q process pid prev next lo hi : ℕ}
  {head tail cur task : ℕ} {x' s' y' n' slot' prev' : ℕ} {p : Process} {t : Task} {f f' : ℕ → ℕ}
  {file : ElfFile} {o : Option Obj} {S : ℕ → Prop} {procs : ℕ → ℕ} {image : DiskImage}
  {fp : FatPrivate} {path entry : List UInt8} {ch : UInt8}

/-! ## Stages -/

/-- A state of the run : the blocks that are free, the ends of the list of tasks, the table of
processes and the current process. -/
structure Stage (image : DiskImage) (fp : FatPrivate) (k : Kernel) (S : ℕ → Prop) (head tail : ℕ)
    (procs : ℕ → ℕ) (cur : ℕ) : Prop where
  guarded : Guarded k.table
  free : k.FreeBelow heapTotalBlocks S
  mounted : k.Mounted image fp
  head : k.taskHead = head
  tail : k.taskTail = tail
  processes : ∀ i < maxProcesses, k.processes i = procs i
  current : k.currentProcess = cur

namespace Stage

/-- The slot that `progess_get_free_slot` answers. -/
theorem firstFreeSlot (h : Stage image fp k S head tail procs cur)
    (hslot : FirstFreeSlot procs slot) : FirstFreeSlot k.processes slot :=
  ⟨hslot.lt, (h.processes slot hslot.lt).trans hslot.free, fun i hi => by
    rw [h.processes i (hi.trans hslot.lt)]
    exact hslot.first i hi⟩

/-- Another way to put it. -/
theorem congr {head' tail' : ℕ} (h : Stage image fp k S head tail procs cur) (T : ℕ → Prop)
    (procs' : ℕ → ℕ) (hS : ∀ i < heapTotalBlocks, S i ↔ T i) (hhead : head = head')
    (htail : tail = tail') (hprocs : ∀ i < maxProcesses, procs i = procs' i) :
    Stage image fp k T head' tail' procs' cur where
  guarded := h.guarded
  free := h.free.congr hS
  mounted := h.mounted
  head := h.head.trans hhead
  tail := h.tail.trans htail
  processes i hi := (h.processes i hi).trans (hprocs i hi)
  current := h.current

/-- A program is loaded and switched to. -/
theorem load (h : Stage image fp k S head tail procs cur) (hslot : FirstFreeSlot procs slot)
    (hp : Place S heapTotalBlocks x s y z) (hn : blocksFor (itemFilesize entry) = n)
    (hz : y + 7 + n + 1027 ≤ z) (hfile : ProgramAt image fp path ch entry)
    (htail : head ≠ 0 → k.Owns tail 1 ∧ ∃ q, k.store tail = some (.task q)) :
    ∃ k' p t f file, processLoadSwitch path k = some ((0, blockAddr x), k') ∧
      Stage image fp k' (fun i => Place.rest S x s i ∧ ¬(y ≤ i ∧ i < y + 7 + n + 1027))
        (if head = 0 then blockAddr (y + 7 + n) else head) (blockAddr (y + 7 + n))
        (fun i => if i = slot then blockAddr x else procs i) (blockAddr x) ∧
      Housed k' x s y n slot p t f file ∧
      SpaceFrom (y + 7 + n + 1) t.pageDirectory (blockAddr (y + 7 + n + 1)) f ∧
      t.prev = (if head = 0 then 0 else tail) ∧ t.next = 0 ∧
      (k.setNext (if head = 0 then 0 else tail) (blockAddr (y + 7 + n))).Extends k' := by
  have happ : k.Appendable := fun h0 => by
    obtain ⟨ho, q, hq⟩ := htail (h.head ▸ h0)
    rw [h.tail]
    exact ⟨ho.ne_zero, ho.not_fresh, q, hq⟩
  have hend : k.listEnd = if head = 0 then 0 else tail := by
    rw [Kernel.listEnd, h.head, h.tail]
  have hnotFresh : ¬k.Fresh k.listEnd := by
    rw [hend]
    split_ifs with h0
    · rintro ⟨b, -, he, -⟩
      exact blockAddr_pos b he.symm
    · exact (htail h0).1.not_fresh
  have hslot' := h.firstFreeSlot hslot
  obtain ⟨k', p, t, d, f, e, file, hrun, hl⟩ := processLoad_row h.guarded hslot' h.free hp hn hz
    le_rfl h.mounted hfile happ
  have hext := hl.ext
  have hprev := hl.prev
  rw [hend] at hext hprev
  rw [hl.task_at] at hext
  obtain ⟨hh, hs⟩ := hl.housed
  have hglob := hl.globals
  rw [hl.task_at] at hglob
  have hfield {α : Type} (g : Kernel → α) : g k'.globals = g { k.globals.withTask
      (blockAddr (y + 7 + n)) with
    processes := fun i => if i = slot then blockAddr x else k.processes i } := congrArg g hglob
  refine ⟨{ k' with currentProcess := blockAddr x }, p, t, f, file, ?_, ⟨hl.guarded h.guarded,
    hl.free, h.mounted.congr (hfield fun k => k.disk) (hfield fun k => k.image)
      (hfield fun k => k.fileDescriptors), ?_, ?_, ?_, rfl⟩, { hh with }, hs, hprev,
    hl.next.resolve_left hnotFresh, hext.of_eq rfl rfl⟩
  · rw [processLoadSwitch, run_bind, hrun]
    rfl
  · have hhead := hfield fun k => k.taskHead
    rw [← h.head]
    exact hhead
  · exact hfield fun k => k.taskTail
  · intro i hi
    rw [← h.processes i hi]
    exact hfield fun k => k.processes i

/-- A process ends. -/
theorem terminate (h : Stage image fp k S head tail procs cur)
    (hh : Housed k x s y n slot p t f file) (hsy : s < y) (hxs : x ≠ s) (hxy : x < y) (hn : 1 ≤ n)
    (hspace : ∀ q, SpacePointer t.pageDirectory (blockAddr (y + 7 + n + 1)) f q →
      ∃ b, q = blockAddr b ∧ k.Owns q 1 ∧ b ≠ s ∧ b ≠ y + 3 ∧ b ≠ y + 7 ∧ b ≠ x ∧ b ≠ y + 7 + n)
    (hne : ∀ i < 1024, t.pageDirectory ≠ entryAddress (f i) ∧
      blockAddr (y + 7 + n + 1) ≠ entryAddress (f i))
    (hprev : t.prev ≠ blockAddr (y + 7 + n)) (hprev' : t.prev ≠ blockAddr x)
    (hstored : ∀ k₁, k.Gone (HouseBlock s y n
      (SpacePointer t.pageDirectory (blockAddr (y + 7 + n + 1)) f)) k₁ →
      ∃ k₂, (if t.prev ≠ 0 then storeNext t.prev t.next else pure ()) k₁ = some ((), k₂) ∧
        k₁.StoredTo k₂ t.prev o)
    (hother : cur = blockAddr x → ∃ i < maxProcesses, i ≠ slot ∧ procs i ≠ 0) :
    ∃ k' c, processTerminateStored (blockAddr x) k = some (0, k') ∧
      Ended k k' (HouseTask s y n (SpacePointer t.pageDirectory (blockAddr (y + 7 + n + 1)) f))
        (blockAddr x) slot p.task t o ∧ Switched k (blockAddr x) slot c ∧
      Stage image fp k' (fun i => S i ∨ ∃ b m, HouseTask s y n
          (SpacePointer t.pageDirectory (blockAddr (y + 7 + n + 1)) f) b m ∧ b ≤ i ∧ i < b + m)
        (if blockAddr (y + 7 + n) = head then t.next else head)
        (if blockAddr (y + 7 + n) = tail then t.prev else tail)
        (fun i => if i = slot then 0 else procs i) c := by
  obtain ⟨k₁, hgone, hrun⟩ := hh.emptied h.guarded hsy hxs hxy hn (fun q hq => by
    obtain ⟨b, rfl, ho, h₁, h₂, h₃, -, -⟩ := hspace q hq
    exact ⟨ho, blockAddr_ne h₁, blockAddr_ne h₂, blockAddr_ne h₃⟩) hne
  obtain ⟨k₂, hstore, hto⟩ := hstored k₁ hgone
  have hno {a : ℕ} (h₁ : a ≠ s) (h₂ : a ≠ y + 3) (h₃ : a ≠ y + 7)
      (hq : ∀ b, SpacePointer t.pageDirectory (blockAddr (y + 7 + n + 1)) f (blockAddr b) → b ≠ a)
      (m : ℕ) : ¬HouseBlock s y n
        (SpacePointer t.pageDirectory (blockAddr (y + 7 + n + 1)) f) a m := by
    rintro (⟨he, -⟩ | ⟨he, -⟩ | ⟨he, -⟩ | ⟨-, he⟩)
    · exact h₃ he
    · exact h₁ he
    · exact h₂ he
    · exact hq a he rfl
  have hblock (b : ℕ) (hb : SpacePointer t.pageDirectory (blockAddr (y + 7 + n + 1)) f
      (blockAddr b)) : b ≠ x ∧ b ≠ y + 7 + n := by
    obtain ⟨b', he, -, -, -, -, h₁, h₂⟩ := hspace _ hb
    rw [blockAddr_inj.mp he]
    exact ⟨h₁, h₂⟩
  obtain ⟨k', hrest, hend⟩ := hh.ended hgone
    (hno (by omega) (by omega) (by omega) fun b hb => (hblock b hb).2)
    (hno hxs (by omega) (by omega) fun b hb => (hblock b hb).1) (by omega) hprev hprev' hstore hto
    fun hc => by
      obtain ⟨i, hi, his, hp⟩ := hother (h.current ▸ hc)
      exact ⟨i, hi, his, by rwa [h.processes i hi]⟩
  obtain ⟨c, hc, hglob⟩ := hend.globals
  have hfield {α : Type} (g : Kernel → α) : g k'.globals = g { k.globals.unlinked p.task t with
    processes := fun i => if i = slot then 0 else k.processes i
    currentProcess := c } := congrArg g hglob
  refine ⟨k', c, (hrun taskListRemoveStored).trans hrest, hend, hc, hend.guarded h.guarded,
    ⟨le_rfl, fun i hi => ?_⟩,
    h.mounted.congr (hfield fun k => k.disk) (hfield fun k => k.image)
      (hfield fun k => k.fileDescriptors), ?_, ?_, ?_, hfield fun k => k.currentProcess⟩
  · rw [hend.free i hi, h.free.2 i hi]
  · have hhead := hfield fun k => k.taskHead
    rw [← h.head, ← hh.task_at]
    exact hhead
  · have htail := hfield fun k => k.taskTail
    rw [← h.tail, ← hh.task_at]
    exact htail
  · intro i hi
    rw [← h.processes i hi]
    exact hfield fun k => k.processes i

/-- The end of a process of the table is a step. -/
theorem tableStep (h : Stage image fp k S head tail procs cur) (slot : ℕ) {res : Int}
    (hslot : slot < maxProcesses) (hprocs : procs slot = blockAddr x)
    (hrun : processTerminateStored (blockAddr x) k = some (res, k')) :
    TableStep k (.terminate (blockAddr x)) k' := by
  have hself : k.processes slot = blockAddr x := (h.processes slot hslot).trans hprocs
  have hstep := TableStep.terminate hslot (hself ▸ blockAddr_pos x : k.processes slot ≠ 0)
    (hself.symm ▸ hrun)
  rwa [hself] at hstep

end Stage

/-! ## Three slots -/

/-- The first three slots of the table of processes. The others are free. -/
def slots (a b c i : ℕ) : ℕ := if i = 0 then a else if i = 1 then b else if i = 2 then c else 0

/-- The first slot is free, or the second or the third is the first that is free. -/
theorem slots_zero : FirstFreeSlot (slots 0 b c) 0 :=
  ⟨by decide, rfl, fun i hi => absurd hi (Nat.not_lt_zero i)⟩

theorem slots_one (ha : a ≠ 0) : FirstFreeSlot (slots a 0 c) 1 := by
  refine ⟨by decide, rfl, fun i hi => ?_⟩
  obtain rfl : i = 0 := by omega
  exact ha

theorem slots_two (ha : a ≠ 0) (hb : b ≠ 0) : FirstFreeSlot (slots a b 0) 2 := by
  refine ⟨by decide, rfl, fun i hi => ?_⟩
  obtain rfl | rfl : i = 0 ∨ i = 1 := by omega
  · exact ha
  · exact hb

/-- No process. -/
theorem slots_free : slots 0 0 0 i = 0 := by
  unfold slots
  split_ifs <;> rfl

/-- Another process in the first slot, in the second and in the third. -/
theorem slots_set_zero : (if i = 0 then q else slots a b c i) = slots q b c i := by
  unfold slots
  split_ifs <;> rfl

theorem slots_set_one : (if i = 1 then q else slots a b c i) = slots a q c i := by
  unfold slots
  split_ifs <;> first | rfl | omega

theorem slots_set_two : (if i = 2 then q else slots a b c i) = slots a b q i := by
  unfold slots
  split_ifs <;> first | rfl | omega

/-! ## The others -/

/-- There is a process with its task between those at `prev` and `next`. -/
def Lives (k : Kernel) (x s y n slot prev next : ℕ) : Prop := ∃ p t f file,
  Housed k x s y n slot p t f file ∧
    SpaceFrom (y + 7 + n + 1) t.pageDirectory (blockAddr (y + 7 + n + 1)) f ∧
    t.prev = prev ∧ t.next = next

/-- `k'` is `k` after the end of a process whose blocks are `s` and those between `lo` and `hi`. -/
structure EndedAt (k k' : Kernel) (s lo hi prev : ℕ) (o : Option Obj) : Prop where
  owns : ∀ b m, k.Owns (blockAddr b) m → b ≠ s → (b < lo ∨ hi ≤ b) → k'.Owns (blockAddr b) m
  store : ∀ b, blockAddr b ≠ prev → b ≠ s → (b < lo ∨ hi ≤ b) →
    k'.store (blockAddr b) = k.store (blockAddr b)
  at_prev : prev ≠ 0 → k'.store prev = o

/-- Block `b` is none of those of the process, but for its path. -/
def Apart (x s y n b : ℕ) : Prop := b ≠ x ∧ b ≠ s ∧ (b < y + 3 ∨ y + 7 + n + 1027 ≤ b)

namespace Lives

/-- Another process is loaded. -/
theorem loaded (h : Lives k x s y n slot prev next) (hext : (k.setNext a task).Extends k') :
    Lives k' x s y n slot prev (if blockAddr (y + 7 + n) = a then task else next) := by
  obtain ⟨p, t, f, file, hh, hs, hp, hn⟩ := h
  exact ⟨p, _, f, file, hh.extends hs hext, hs, hp, by rw [← hn]⟩

/-- Another process has ended, whose task was not behind this one. -/
theorem apart (h : Lives k x s y n slot prev next) (hend : EndedAt k k' s' lo hi prev' o)
    (hB : ∀ b, (b = x ∨ b = s ∨ y + 3 ≤ b ∧ b < y + 7 + n + 1027) → b ≠ s' ∧ (b < lo ∨ hi ≤ b))
    (hprev : ∀ b, prev' = blockAddr b → Apart x s y n b) : Lives k' x s y n slot prev next := by
  obtain ⟨p, t, f, file, hh, hs, hp, hn⟩ := h
  have hstore {b : ℕ} (hb : b = x ∨ b = s ∨ y + 3 ≤ b ∧ b < y + 7 + n + 1027) :
      k'.store (blockAddr b) = k.store (blockAddr b) :=
    hend.store b (fun he => by
      obtain ⟨h₁, h₂, h₃⟩ := hprev b he.symm
      omega) (hB b hb).1 (hB b hb).2
  obtain ⟨b, hb, hb', hc⟩ := (hs.pointers t.pageDirectory).mp (.inl rfl)
  refine ⟨p, t, f, file, hh.frame (fun b m ho hb => ?_) (hstore (.inl rfl)) ?_ ?_ rfl rfl ?_, hs,
    hp, hn⟩
  · obtain ⟨h₁, h₂⟩ := hB b (by omega)
    exact hend.owns b m ho h₁ h₂
  · rw [hc, hstore (.inr (.inr ⟨by omega, by omega⟩))]
  · rw [hstore (.inr (.inr ⟨by omega, by omega⟩)), hh.task]
  · rw [hstore (.inr (.inr ⟨by omega, by omega⟩)), hh.directory]

end Lives

/-- The current process stays, unless it is the one that ends. -/
theorem Switched.eq_of_ne (h : Switched k process pid c) (hne : k.currentProcess ≠ process) :
    c = k.currentProcess := by
  cases h with
  | other _ => rfl
  | any he _ _ _ => exact absurd he hne

/-- A program of `n` blocks that `path` leads to. -/
structure ProgramOf (image : DiskImage) (fp : FatPrivate) (path : List UInt8) (n : ℕ) : Prop where
  program : ∃ ch entry, ProgramAt image fp path ch entry ∧ blocksFor (itemFilesize entry) = n

/-- A program is loaded. -/
theorem Stage.loads (h : Stage image fp k S head tail procs cur) (slot x s y z : ℕ)
    (hslot : FirstFreeSlot procs slot) (hprog : ProgramOf image fp path n)
    (hp : Place S heapTotalBlocks x s y z) (hz : y + 7 + n + 1027 ≤ z)
    (htail : head ≠ 0 → k.Owns tail 1 ∧ ∃ q, k.store tail = some (.task q)) :
    ∃ k', TableStep k (.load path 0) k' ∧
      Stage image fp k' (fun i => Place.rest S x s i ∧ ¬(y ≤ i ∧ i < y + 7 + n + 1027))
        (if head = 0 then blockAddr (y + 7 + n) else head) (blockAddr (y + 7 + n))
        (fun i => if i = slot then blockAddr x else procs i) (blockAddr x) ∧
      Lives k' x s y n slot (if head = 0 then 0 else tail) 0 ∧
      (k.setNext (if head = 0 then 0 else tail) (blockAddr (y + 7 + n))).Extends k' := by
  obtain ⟨ch, entry, hfile, hn⟩ := hprog.program
  obtain ⟨k', p, t, f, file, hrun, hstage, hh, hs, hprev, hnext, hext⟩ :=
    h.load hslot hp hn hz hfile htail
  exact ⟨k', .load hrun, hstage, ⟨p, t, f, file, hh, hs, hprev, hnext⟩, hext⟩

/-- A program is loaded to the first of the free blocks, when these are all from one on. -/
theorem Stage.loads_behind (h : Stage image fp k (fun i => x ≤ i) head tail procs cur) (slot : ℕ)
    (hslot : FirstFreeSlot procs slot) (hprog : ProgramOf image fp path n)
    (hx : x + n + 2069 ≤ heapTotalBlocks)
    (htail : head ≠ 0 → k.Owns tail 1 ∧ ∃ q, k.store tail = some (.task q)) :
    ∃ k', TableStep k (.load path 0) k' ∧
      Stage image fp k' (fun i => x + n + 1038 ≤ i)
        (if head = 0 then blockAddr (x + 11 + n) else head) (blockAddr (x + 11 + n))
        (fun i => if i = slot then blockAddr x else procs i) (blockAddr x) ∧
      Lives k' x (x + 3) (x + 4) n slot (if head = 0 then 0 else tail) 0 ∧
      (k.setNext (if head = 0 then 0 else tail) (blockAddr (x + 11 + n))).Extends k' := by
  have hplace : Place (fun i => x ≤ i) heapTotalBlocks x (x + 3) (x + 4) (x + n + 1038) :=
    ⟨fun i hi _ => hi, by omega, by omega, fun i hi hx => by omega, fun i hi _ => by omega,
      by omega, by omega, by omega, x + n + 1038, le_rfl, by omega, fun i hi _ => by omega⟩
  obtain ⟨k', hstep, hstage, hl, hext⟩ := h.loads slot x (x + 3) (x + 4) (x + n + 1038) hslot hprog
    hplace (by omega) htail
  rw [show x + 4 + 7 + n = x + 11 + n by omega] at hstage hext
  refine ⟨k', hstep, hstage.congr _ _ (fun i _ => ?_) rfl rfl fun _ _ => rfl, hl, hext⟩
  unfold Place.rest
  omega

/-- Its task can be appended to. -/
theorem Lives.owns_task (h : Lives k x s y n slot prev next) :
    k.Owns (blockAddr (y + 7 + n)) 1 ∧ ∃ q, k.store (blockAddr (y + 7 + n)) = some (.task q) := by
  obtain ⟨p, t, f, file, hh, -⟩ := h
  exact ⟨hh.owns_space _ le_rfl (by omega), t, hh.task⟩

/-- Another process has ended, whose task was behind this one. -/
theorem Housed.relinked (h : Housed k x s y n slot p t f file)
    (hs : SpaceFrom (y + 7 + n + 1) t.pageDirectory (blockAddr (y + 7 + n + 1)) f)
    (hend : EndedAt k k' s' lo hi (blockAddr (y + 7 + n)) (some (.task { t with next := next })))
    (hx : x ≠ y + 7 + n)
    (hB : ∀ b, (b = x ∨ b = s ∨ y + 3 ≤ b ∧ b < y + 7 + n + 1027) → b ≠ s' ∧ (b < lo ∨ hi ≤ b)) :
    Lives k' x s y n slot t.prev next := by
  have hstore {b : ℕ} (hb : b = x ∨ b = s ∨ y + 3 ≤ b ∧ b < y + 7 + n + 1027)
      (hne : b ≠ y + 7 + n) : k'.store (blockAddr b) = k.store (blockAddr b) :=
    hend.store b (blockAddr_ne hne) (hB b hb).1 (hB b hb).2
  obtain ⟨b, hb, hb', hc⟩ := (hs.pointers t.pageDirectory).mp (.inl rfl)
  refine ⟨p, _, f, file, h.frame (fun b m ho hb => ?_) (hstore (.inl rfl) hx) ?_
    (hend.at_prev (blockAddr_pos _)) rfl rfl ?_, hs, rfl, rfl⟩
  · obtain ⟨h₁, h₂⟩ := hB b (by omega)
    exact hend.owns b m ho h₁ h₂
  · rw [hc, hstore (.inr (.inr ⟨by omega, by omega⟩)) (by omega)]
  · rw [hstore (.inr (.inr ⟨by omega, by omega⟩)) (by omega), h.directory]

/-- A process ends that is not the current one. -/
theorem Stage.terminates (h : Stage image fp k S head tail procs cur)
    (hl : Lives k x s y n slot prev next) (hslot : slot < maxProcesses)
    (hprocs : procs slot = blockAddr x) (hsy : s < y) (hxs : x ≠ s) (hxy : x < y) (hn : 1 ≤ n)
    (hprev : prev = 0 ∨ ∃ b, prev = blockAddr b ∧ Apart x s y n b)
    (hstored : ∀ k₁, (prev ≠ 0 → k₁.store prev = k.store prev) →
      ∃ k₂, (if prev ≠ 0 then storeNext prev next else pure ()) k₁ = some ((), k₂) ∧
        k₁.StoredTo k₂ prev o) (hcur : cur ≠ blockAddr x) :
    ∃ k', TableStep k (.terminate (blockAddr x)) k' ∧
      EndedAt k k' s (y + 3) (y + 7 + n + 1027) prev o ∧
      Stage image fp k' (fun i => S i ∨ i = s ∨ y + 3 ≤ i ∧ i < y + 7 + n + 1027)
        (if blockAddr (y + 7 + n) = head then next else head)
        (if blockAddr (y + 7 + n) = tail then prev else tail)
        (fun i => if i = slot then 0 else procs i) cur := by
  obtain ⟨p, t, f, file, hh, hs, rfl, rfl⟩ := hl
  have hne (b : ℕ) (hb : ¬Apart x s y n b) : t.prev ≠ blockAddr b := fun he => by
    rcases hprev with h0 | ⟨b', hb', ha⟩
    · exact blockAddr_pos b (he.symm.trans h0)
    · obtain rfl := blockAddr_inj.mp (he.symm.trans hb')
      exact hb ha
  obtain ⟨k', c, hrun, hend, hc, hstage⟩ := h.terminate hh hsy hxs hxy hn
    (fun q hq => hs.hspace hh hsy hxy hq) hs.ne (hne _ fun ha => by
      obtain ⟨-, -, ha⟩ := ha
      omega) (hne _ fun ha => ha.1 rfl)
    (fun k₁ hgone => hstored k₁ fun hp0 => hgone.store _ hp0 fun b m hb he => by
      rcases hprev with h0 | ⟨b', hb', -, ha, ha'⟩
      · exact hp0 h0
      · rw [hb'] at he
        obtain rfl := blockAddr_inj.mp he
        exact hs.not_houseTask ha ha' m (.inl hb)) fun he => absurd he hcur
  obtain rfl := (hc.eq_of_ne (h.current.symm ▸ hcur)).trans h.current
  refine ⟨k', h.tableStep slot hslot hprocs hrun, ⟨fun b m ho h₁ h₂ => hend.owns b m ho
    (hs.not_houseTask h₁ h₂), fun b h₀ h₁ h₂ => hend.store _ (blockAddr_pos b) h₀
    fun b' m hb he => ?_, hend.at_prev⟩, hstage.congr _ _ (fun i _ => by rw [hs.houseTask]) rfl rfl
    fun _ _ => rfl⟩
  exact hs.not_houseTask h₁ h₂ m (blockAddr_inj.mp he ▸ hb)

/-- Another process has ended, whose task was behind what is the directory of this one by then. -/
theorem Housed.redirected (h : Housed k x s y n slot p t f file)
    (hs : SpaceFrom (y + 7 + n + 1) t.pageDirectory (blockAddr (y + 7 + n + 1)) f)
    (hend : EndedAt k k' s' lo hi (blockAddr (y + 7 + n + 1)) (some (.directory f')))
    (hx : x ≠ y + 7 + n + 1)
    (hB : ∀ b, (b = x ∨ b = s ∨ y + 3 ≤ b ∧ b < y + 7 + n + 1027) → b ≠ s' ∧ (b < lo ∨ hi ≤ b)) :
    Housed k' x s y n slot p t f' file := by
  have hstore {b : ℕ} (hb : b = x ∨ b = s ∨ y + 3 ≤ b ∧ b < y + 7 + n + 1027)
      (hne : b ≠ y + 7 + n + 1) : k'.store (blockAddr b) = k.store (blockAddr b) :=
    hend.store b (blockAddr_ne hne) (hB b hb).1 (hB b hb).2
  obtain ⟨b, hb, hb', hc⟩ := (hs.pointers t.pageDirectory).mp (.inl rfl)
  have hne : b ≠ y + 7 + n + 1 := fun he => by
    have hchunk := h.chunk
    rw [hc, he, h.directory] at hchunk
    cases hchunk
  refine h.frame (fun b m ho hb => ?_) (hstore (.inl rfl) hx) ?_ ?_ rfl rfl
    (hend.at_prev (blockAddr_pos _))
  · obtain ⟨h₁, h₂⟩ := hB b (by omega)
    exact hend.owns b m ho h₁ h₂
  · rw [hc, hstore (.inr (.inr ⟨by omega, by omega⟩)) hne]
  · rw [hstore (.inr (.inr ⟨by omega, by omega⟩)) (by omega), h.task]

/-- The beginning of a block is on a page. -/
theorem entryAddress_blockAddr (hb : b < heapTotalBlocks) :
    entryAddress (blockAddr b) = blockAddr b := by
  have hlt := blockAddr_lt hb
  have hmod := blockAddr_mod b
  rw [entryAddress_eq]
  omega

/-- The pointers of a space after one of its directory's entries has been overwritten. -/
theorem spacePointer_redirect (hb : b < heapTotalBlocks) {q : ℕ}
    (hq : SpacePointer c d (redirect (blockAddr b) f) q) :
    q = blockAddr b ∨ SpacePointer c d f q := by
  rcases hq with hq | hq | ⟨i, hi, hq⟩
  · exact .inr (.inl hq)
  · exact .inr (.inr (.inl hq))
  · by_cases h14 : i = 14
    · rw [redirect, if_pos h14, entryAddress_blockAddr hb] at hq
      exact .inl hq
    · rw [redirect, if_neg h14] at hq
      exact .inr (.inr (.inr ⟨i, hi, hq⟩))

/-- What was stored is one of them. -/
theorem spacePointer_redirected (hb : b < heapTotalBlocks) :
    SpacePointer c d (redirect (blockAddr b) f) (blockAddr b) :=
  .inr (.inr ⟨14, by decide, by rw [redirect, if_pos rfl, entryAddress_blockAddr hb]⟩)

end Hyperion
