import Hyperion.PlacedFile

/-!
# Where a process is loaded to

`process_load` of a program, with every block that it is answered. `Place S M x s y z` says how the
free blocks have to lie : the process goes to block `x`, the structure of its file to block `s`,
and all the rest behind one another from block `y` on. From there the path takes three blocks,
which are never freed, the stack the four that were the descriptor's (`StartedAt.kzalloc_stack`),
the file its `n` blocks, and the task with its space the 1027 blocks behind (`taskNew_row`). Of the
space only the set of its blocks is told (`TaskLoadedAt.space_iff`).

`processLoad_row` says all of it for a file with one segment : the load succeeds, the process is
what `Loaded` says of any load, and `LoadedAt` adds the blocks and what is free afterwards.
-/

namespace Hyperion

open Partial FreeRun ElfBytes

variable {k k' k₁ : Kernel} {M y w z d task process slot flags u n x s lo : ℕ} {T S : ℕ → Prop}
  {p p' : Process} {t : Task} {f e : ℕ → ℕ} {path : List UInt8} {c : UInt8} {entry : List UInt8}
  {fp : FatPrivate} {image : DiskImage}

/-! ## The task -/

/-- What leaves the heap table as it is leaves the row as it is. -/
theorem Kernel.Row.of_unchanged {α : Type} {prog : KernelM α} (h : k.Row M T y w z)
    (hp : Unchanged Kernel.heapTable prog) :
    Meets False prog k fun _ k' => k'.Row M T y w z :=
  ⟨fun _ _ e => h.of_heapTable (hp _ _ _ e), fun _ => id⟩

/-- The tables of a space take the next blocks of the row. -/
theorem pagingNew4gbLoop_row : ∀ (fuel i offset : ℕ) {k : Kernel} {w : ℕ},
    k.Row M T y w z → w + fuel ≤ z →
    Meets False (pagingNew4gbLoop flags d fuel i offset) k fun _ k' => k'.Row M T y (w + fuel) z
  | 0, _, _, _, _, h, _ => Meets.pure_iff.mpr h
  | fuel + 1, i, offset, k, w, h, hz => by
    obtain ⟨-, -, e₁, h₁⟩ := h.kzalloc 4096 (w + 1) (by decide) rfl (by omega)
    refine .bind (.of_run_eq (Q := fun _ k' => k'.Row M T y (w + 1) z) e₁ h₁) fun _ k₁ h₁ => ?_
    refine .bind (h₁.of_unchanged putObj_heapTable) fun _ k₂ h₂ => ?_
    refine .bind (h₂.of_unchanged setDirectoryEntry_heapTable) fun _ k₃ h₃ => ?_
    exact (pagingNew4gbLoop_row fuel (i + 1) _ h₃ (by omega)).mono fun _ k₄ h₄ =>
      (by omega : w + 1 + fuel = w + (fuel + 1)) ▸ h₄

/-- A new space takes the next blocks of the row behind its directory. -/
theorem pagingNew4gb_row (hd : kzalloc 4096 k = some (d, k₁)) (h : k₁.Row M T y w z)
    (hz : w + 1025 ≤ z) : Meets False (pagingNew4gb flags) k fun c k' =>
      c = blockAddr (w + 1024) ∧ k'.store c = some (.chunk d) ∧ k'.Row M T y (w + 1025) z := by
  have hrest {k₂ : Kernel} (h₂ : k₂.Row M T y w z) : Meets False (do
      pagingNew4gbLoop flags d 1024 0 0
      let chunk ← kzalloc 4
      putObj chunk (.chunk d)
      return chunk) k₂ fun c k' =>
        c = blockAddr (w + 1024) ∧ k'.store c = some (.chunk d) ∧ k'.Row M T y (w + 1025) z := by
    refine .bind (pagingNew4gbLoop_row 1024 0 0 h₂ (by omega)) fun _ k₃ h₃ => ?_
    obtain ⟨-, -, e₄, h₄⟩ := h₃.kzalloc 4 (w + 1025) (by decide) rfl hz
    refine .bind (.of_run_eq (Q := fun c k' => c = blockAddr (w + 1024) ∧
      k'.Row M T y (w + 1025) z) e₄ ⟨rfl, h₄⟩) ?_
    rintro _ k₄ ⟨rfl, h₄⟩
    rw [Meets.bind_iff, Kernel.putObj_meets, if_neg (blockAddr_pos _), Meets.pure_iff]
    exact ⟨rfl, Kernel.put_store_self _ _ _, h₄.of_heapTable rfl⟩
  refine .bind (.of_run_eq (Q := fun a k' => a = d ∧ k'.Row M T y w z) hd ⟨rfl, h⟩) ?_
  rintro _ k₂ ⟨rfl, h₂⟩
  show Meets False (if _ then _ else _) _ _
  refine Meets.ite_iff.mpr ⟨fun _ => ?_, fun _ => hrest h₂⟩
  exact .bind (h₂.of_unchanged putObj_heapTable) fun _ k₃ h₃ => hrest h₃

/-- The row has been taken up to `w`, and the task at `task` has a space with the directory at
`d`. -/
structure Kernel.TaskPlaced (k : Kernel) (M : ℕ) (T : ℕ → Prop) (y w z task d : ℕ) : Prop where
  row : k.Row M T y w z
  space : ∃ t, k.store task = some (.task t) ∧ t.pageDirectory ≠ task ∧
    k.store t.pageDirectory = some (.chunk d)

/-- A change of any task that keeps its space. -/
theorem Kernel.TaskPlaced.modifyTask {f : Task → Task} (h : k.TaskPlaced M T y w z task d)
    (a : ℕ) (hf : ∀ t, (f t).pageDirectory = t.pageDirectory) :
    Meets False (modifyTask a f) k fun _ k' => k'.TaskPlaced M T y w z task d := by
  refine Kernel.modifyTask_rule False.elim fun t _ ht => ⟨h.row.of_heapTable rfl, ?_⟩
  obtain ⟨t', ht', hne, hc⟩ := h.space
  have hchunk : t'.pageDirectory ≠ a := fun he => by
    rw [he, ht] at hc
    cases hc
  by_cases ha : task = a
  · subst ha
    rw [ht, Option.some_inj, Obj.task.injEq] at ht'
    subst ht'
    refine ⟨f t, Kernel.put_store_self _ _ _, by rwa [hf], ?_⟩
    rw [hf, Kernel.put_store, if_neg hchunk, hc]
  · exact ⟨t', by rw [Kernel.put_store, if_neg ha, ht'], hne, by
      rw [Kernel.put_store, if_neg hchunk, hc]⟩

/-- A task that is set up. -/
theorem taskInit_row (hd : kzalloc 4096 (k.put task (.task Task.zero)) = some (d, k₁))
    (h : k₁.Row M T y w z) (hz : w + 1025 ≤ z) (ht : task ≠ 0) (hne : task ≠ blockAddr (w + 1024)) :
    Meets False (taskInit task process) k fun _ k' => k'.TaskPlaced M T y (w + 1025) z task d := by
  rw [taskInit, Meets.bind_iff, Kernel.putObj_meets, if_neg ht]
  refine .bind (pagingNew4gb_row hd h hz) ?_
  rintro _ k₂ ⟨rfl, hc, h₂⟩
  refine .bind (Q := fun _ k' => k'.TaskPlaced M T y (w + 1025) z task d) ?_ fun _ k₃ h₃ => ?_
  · refine Kernel.modifyTask_rule False.elim fun t _ _ => ⟨h₂.of_heapTable rfl, _,
      Kernel.put_store_self _ _ _, hne.symm, ?_⟩
    rw [Kernel.put_store, if_neg hne.symm, hc]
  rw [if_neg (blockAddr_pos _)]
  refine .bind (h₃.modifyTask _ fun _ => rfl) fun _ k₄ h₄ => ?_
  refine .bind (Q := fun _ k' => k'.TaskPlaced M T y (w + 1025) z task d) ?_ fun p k₅ h₅ => ?_
  · exact Kernel.getProcess_rule False.elim fun _ _ _ => h₄
  have hrest {k₆ : Kernel} {f : Task → Task} (hf : ∀ t, (f t).pageDirectory = t.pageDirectory)
      (h₆ : k₆.TaskPlaced M T y (w + 1025) z task d) : Meets False (do
        modifyTask task f
        return (0 : Int)) k₆ fun _ k' => k'.TaskPlaced M T y (w + 1025) z task d :=
    .bind (h₆.modifyTask _ hf) fun _ _ h => Meets.pure_iff.mpr h
  refine Meets.ite_iff.mpr ⟨fun _ => ?_, fun _ => hrest (fun _ => rfl) h₅⟩
  cases p.data with
  | ptr a => exact Meets.bind_iff.mpr (Meets.fault_iff.mpr not_false)
  | elfFile f =>
    refine .bind (Q := fun _ k' => k'.TaskPlaced M T y (w + 1025) z task d) ?_ fun _ k₆ h₆ =>
      .bind (h₆.modifyTask _ fun _ => rfl) fun _ _ h => hrest (fun _ => rfl) h
    simp only [elfEntry, Meets.bind_iff, Meets.get_iff, Meets.ite_iff, Meets.fault_iff,
      Meets.pure_iff, not_false_eq_true, implies_true, true_and]
    exact fun _ => h₅

/-- A new task takes the next 1027 blocks of the row : its structure, the directory, the tables
and the chunk. -/
theorem taskNew_row (h : k.Row M T y w z) (hz : w + 1027 ≤ z) :
    Meets False (taskNew process) k fun task k' => task = blockAddr w ∧
      k'.TaskPlaced M T y (w + 1027) z (blockAddr w) (blockAddr (w + 1)) := by
  obtain ⟨ha, -, e₁, h₁⟩ := h.kzalloc 64 (w + 1) (by decide) rfl (by omega)
  refine .bind (.of_run_eq (Q := fun a k' => a = blockAddr w ∧ k' = k.allocated w 64) e₁
    ⟨rfl, rfl⟩) ?_
  rintro _ _ ⟨rfl, rfl⟩
  rw [if_neg (blockAddr_pos _)]
  have hput : ((k.allocated w 64).put (blockAddr w) (.task Task.zero)).Row M T y (w + 1) z :=
    h₁.of_heapTable rfl
  obtain ⟨-, -, e₂, h₂⟩ := hput.kzalloc 4096 (w + 2) (by decide) rfl (by omega)
  have hne : blockAddr w ≠ blockAddr (w + 2 + 1024) := fun he => by
    have := blockAddr_inj.mp he
    omega
  have hbuilt : Meets False (taskInit (blockAddr w) process) (k.allocated w 64) _ :=
    taskInit_built (c := 0) ha.ext ha.fresh (ha.owns (by decide)) False.elim
  refine .bind (hbuilt.and (taskInit_row e₂ h₂ (by omega) (blockAddr_pos _) hne)) ?_
  rintro _ k₃ ⟨⟨rfl, -⟩, h₃⟩
  have h₃ : k₃.TaskPlaced M T y (w + 1027) z (blockAddr w) (blockAddr (w + 1)) := h₃
  rw [if_neg (not_not.mpr rfl), Meets.bind_iff, Meets.get_iff]
  refine Meets.ite_iff.mpr ⟨fun _ => ?_, fun _ => ?_⟩
  · rw [Meets.bind_iff, Meets.set_iff, Meets.pure_iff]
    exact ⟨rfl, h₃.row.of_heapTable rfl, h₃.space⟩
  refine .bind (h₃.modifyTask _ fun _ => rfl) fun _ k₄ h₄ => ?_
  refine .bind (h₄.modifyTask _ fun _ => rfl) fun _ k₅ h₅ => ?_
  rw [Meets.bind_iff, Meets.modify_iff, Meets.pure_iff]
  exact ⟨rfl, h₅.row.of_heapTable rfl, h₅.space⟩

/-! ## The stack and the task -/

/-- What `processLoadTask` leaves when the stack is at block `u` and the rest in the row. -/
structure TaskLoadedAt (k k' : Kernel) (process slot : ℕ) (p p' : Process) (t : Task) (d : ℕ)
    (f e : ℕ → ℕ) (u w : ℕ) : Prop extends TaskLoaded k k' process slot p p' t d f e where
  stack_at : p'.stack = blockAddr u
  task_at : p'.task = blockAddr w
  directory_at : d = blockAddr (w + 1)

/-- The stack, the task and its space, in a row where the stack has been given its place. -/
theorem processLoadTask_row (hf : ¬k.Fresh process) (hp0 : process ≠ 0)
    (hp : k.store process = some (.process p)) (htyped : p.Typed)
    (hu : k.Answers userProgramStackSize u)
    (hrun : kzalloc userProgramStackSize k =
      some (blockAddr u, k.allocated u userProgramStackSize))
    (h : (k.allocated u userProgramStackSize).Row M T y w z) (hz : w + 1027 ≤ z) :
    Meets False (processLoadTask path process slot) k fun x k' => x.1 = 0 →
      k'.Row M T y (w + 1027) z ∧
        ∃ p' t d f e, TaskLoadedAt k k' process slot p p' t d f e u w := by
  have hne : process ≠ blockAddr u := fun he => hf (he ▸ hu.fresh)
  have hstore : (k.allocated u userProgramStackSize).store process = some (.process p) := by
    rw [Kernel.allocated_store, if_neg (fun he => hne he.1), hp]
  have hstart : Meets False (do
      modifyProcess process fun p =>
        { p with filename := path.take (maxPath - 1), stack := blockAddr u, pid := slot }
      let task ← taskNew process
      return task) (k.allocated u userProgramStackSize) _ :=
    processLoadTask_start (c := 0) path slot hf hp0 hp hu False.elim
  rw [Meets.bind_iff, Kernel.modifyProcess_meets hp0 hstore] at hstart
  rw [processLoadTask]
  refine .bind (.of_run_eq (Q := fun a k' => a = blockAddr u ∧
    k' = k.allocated u userProgramStackSize) hrun ⟨rfl, rfl⟩) ?_
  rintro _ _ ⟨rfl, rfl⟩
  rw [if_neg (blockAddr_pos _), Meets.bind_iff, Kernel.modifyProcess_meets hp0 hstore]
  set p₁ : Process := { p with
    filename := path.take (maxPath - 1), stack := blockAddr u, pid := slot } with hp₁
  set k₁ := (k.allocated u userProgramStackSize).put process (.process p₁) with hk₁
  have hself : Meets False (taskNew process) k₁ fun _ k' =>
      k'.store process = some (.process p₁) := by
    refine Meets.mono (taskNew_meets (c := 0) False.elim) ?_
    rintro _ k' ⟨⟨t, d, f, ha⟩, -⟩
    exact ha.ext.store_setNext hp0 (fun h => hf (hu.ext.fresh h)) (Kernel.put_store_self _ _ _)
      (by simp)
  have hrow : k₁.Row M T y w z := h.of_heapTable rfl
  refine .bind ((hstart.and hself).and (taskNew_row hrow hz)) ?_
  rintro _ k₂ ⟨⟨⟨htask, -, p₂, t, d, f, hp₂, h₂⟩, hself₂⟩, rfl, hplaced⟩
  rw [hself₂, Option.some_inj, Obj.process.injEq] at hp₂
  subst hp₂
  have hat := h₂.at_process hp0
  rw [if_neg htask, Meets.bind_iff, Kernel.modifyProcess_meets hp0 hself₂]
  refine .bind (processMapMemory_meets hat (h₂.typed htyped)) ?_
  rintro res k₃ ⟨ht, ⟨rfl, hm, hat₃⟩ | ⟨hneg, hm, e', hat₃⟩⟩
  · rw [if_neg (lt_irrefl 0), Meets.bind_iff, Meets.modify_iff, Meets.pure_iff]
    refine fun _ => ⟨(hplaced.row.of_heapTable ht.heapTable).of_heapTable rfl, _, t, d, f, _,
      h₂.loaded ht hm hat₃, rfl, rfl, ?_⟩
    -- the space that was built is the one whose blocks are known
    obtain ⟨t', ht', -, hc⟩ := hplaced.space
    have hne' : blockAddr w ≠ process := fun he => by
      rw [he, hself₂] at ht'
      cases ht'
    have hst := h₂.built.store
    rw [Kernel.put_store, if_neg hne', ht', Option.some_inj, Obj.task.injEq] at hst
    subst hst
    have hchunk := h₂.built.maps.chunk
    rw [Kernel.put_store, if_neg ?_, hc, Option.some_inj, Obj.chunk.injEq] at hchunk
    · exact hchunk.symm
    · intro he
      rw [he, hself₂] at hc
      cases hc
  · rw [if_pos hneg]
    exact .bind Meets.self fun _ _ _ => Meets.pure_iff.mpr fun h0 => absurd h0 hneg.ne

/-! ## The process -/

/-- Where first fit puts what a load allocates, when the blocks of `S` are free : the process at
block `x`, the structure of the file at block `s`, and the rest in the row from `y` to `z`. -/
structure Place (S : ℕ → Prop) (M x s y z : ℕ) : Prop where
  run : ∀ i, x ≤ i → i < x + 3 → S i
  self : S s
  apart : s + 1 < x ∨ x + 3 ≤ s
  below : ∀ i < y, S i → (x ≤ i ∧ i < x + 3) ∨ i = s
  row : ∀ i, y ≤ i → i < z → S i
  process_le : x + 3 ≤ y
  self_lt : s < y
  row_le : y ≤ z
  room : ∃ lo, z ≤ lo ∧ lo + 1031 ≤ M ∧ ∀ i, lo ≤ i → i < lo + 1031 → S i

/-- What is left when the process and the structure of the file have been allocated. -/
def Place.rest (S : ℕ → Prop) (x s : ℕ) (i : ℕ) : Prop := S i ∧ ¬(x ≤ i ∧ i < x + 3) ∧ i ≠ s

namespace Place

/-- The process. -/
theorem kzalloc_process (hp : Place S M x s y z) (h : k.FreeBelow M S) :
    k.Answers 9364 x ∧ kzalloc 9364 k = some (blockAddr x, k.allocated x 9364) ∧
      (k.allocated x 9364).FreeBelow M fun i => S i ∧ ¬(x ≤ i ∧ i < x + 3) := by
  have hblocks : blocksFor 9364 = 3 := by decide
  obtain ⟨lo, hlo, hM, -⟩ := hp.room
  have hle := hp.process_le
  have hyz := hp.row_le
  obtain ⟨ha, hn, hk⟩ := h.kzalloc_run 9364 x (by decide) (by rw [hblocks]; omega)
    (by rw [hblocks]; exact hp.run) fun j hj => by
      by_cases hs : S j
      · refine ⟨j + 1, by omega, by rw [hblocks]; omega, fun hs' => ?_⟩
        have hself := hp.apart
        rcases hp.below j (by omega) hs with h₁ | h₁ <;>
          rcases hp.below (j + 1) (by omega) hs' with h₂ | h₂ <;> omega
      · exact ⟨j, le_rfl, by rw [hblocks]; omega, hs⟩
  exact ⟨ha, hk, (h.allocated hn).congr fun i _ => by rw [hblocks]⟩

/-- The structure of the file. -/
theorem kzalloc_self (hp : Place S M x s y z)
    (h : k.FreeBelow M fun i => S i ∧ ¬(x ≤ i ∧ i < x + 3)) :
    k.Answers 132 s ∧ kzalloc 132 k = some (blockAddr s, k.allocated s 132) ∧
      (k.allocated s 132).Row M (rest S x s) y y z := by
  have hblocks : blocksFor 132 = 1 := by decide
  obtain ⟨lo, hlo, hM, -⟩ := hp.room
  have hle := hp.self_lt
  have hyz := hp.row_le
  have hx := hp.process_le
  have hself := hp.apart
  obtain ⟨ha, hn, hk⟩ := h.kzalloc_run 132 s (by decide) (by rw [hblocks]; omega)
    (fun i hi hi' => by
      obtain rfl : i = s := by
        rw [hblocks] at hi'
        omega
      exact ⟨hp.self, by omega⟩) fun j hj => ⟨j, le_rfl, by rw [hblocks]; omega, fun hs => by
        rcases hp.below j (by omega) hs.1 with h₁ | h₁
        · exact hs.2 h₁
        · omega⟩
  refine ⟨ha, hk, (h.allocated hn).congr fun i _ => ?_, le_rfl, fun i hi hr => ?_, fun i hi hi' =>
    ⟨hp.row i hi hi', by omega, by omega⟩, by omega⟩
  · rw [hblocks]
    constructor
    · rintro ⟨⟨hS, hno⟩, hno'⟩
      exact ⟨⟨hS, hno, by omega⟩, by omega⟩
    · rintro ⟨⟨hS, hno, hne⟩, -⟩
      exact ⟨⟨hS, hno⟩, by omega⟩
  · rcases hp.below i hi hr.1 with h₁ | h₁
    · exact hr.2.1 h₁
    · exact hr.2.2 h₁

end Place

/-- The process of a program whose file is read to the blocks from `y + 7` on. -/
structure StartedAt (k k' : Kernel) (M : ℕ) (S : ℕ → Prop) (x s y n : ℕ) (file : ElfFile) :
    Prop where
  self : file.self = blockAddr s
  memory : file.elfMemory = blockAddr (y + 7)
  free : k'.FreeBelow M fun i => Place.rest S x s i ∧ ¬(y ≤ i ∧ i < y + 3) ∧
    ¬(y + 7 ≤ i ∧ i < y + 7 + n)
  buffer : k'.Owns (blockAddr (y + 7)) n
  bytes : ∀ j < 85, bytesFrom k'.mem (blockAddr (y + 7)) j = (oneSegment 84 0).getD j 0
  loaded : DataLoaded ((k.allocated x 9364).put (blockAddr x) (.process Process.zero)) k'
    (blockAddr x) Process.zero { Process.zero with filetype := .elf, data := .elfFile file }

/-- The load as far as the data. -/
theorem processLoadStart_row (hg : Guarded k.table) (h : k.FreeBelow M S)
    (hp : Place S M x s y z) (hz : y + 7 + blocksFor (itemFilesize entry) ≤ z)
    (hm : k.Mounted image fp) (hfile : ProgramAt image fp path c entry) :
    ∃ file k', processLoadStart path k = some ((0, blockAddr x), k') ∧
      StartedAt k k' M S x s y (blocksFor (itemFilesize entry)) file := by
  obtain ⟨hx, e₁, h₁⟩ := hp.kzalloc_process h
  set k₁ := (k.allocated x 9364).put (blockAddr x) (.process Process.zero) with hk₁
  have hput : k₁.FreeBelow M fun i => S i ∧ ¬(x ≤ i ∧ i < x + 3) := h₁.of_heapTable rfl
  have hm₁ : k₁.Mounted image fp := hm.of_globals (k.allocated_globals x 9364)
  obtain ⟨hs, e₂, h₂⟩ := hp.kzalloc_self hput
  obtain ⟨r, file, k₂, e₃, hres, hfile₂, hself, hmem, hfree, hown, hbytes⟩ :=
    elfLoad_row e₂ (k₁.allocated_globals s 132) h₂ hz hm₁ hfile
  have hown₁ := hx.owns (show 1 ≤ 9364 by decide)
  have hg₁ : Guarded k₁.table := hx.ext.keeps.guarded hg
  have hnf : ¬k₁.Fresh (blockAddr x) := hown₁.not_fresh
  have hp₁ : k₁.store (blockAddr x) = some (.process Process.zero) := Kernel.put_store_self _ _ _
  have hgrows := ((elfLoad_grows hg₁).of_eq e₃).1
  have hp₂ : k₂.store (blockAddr x) = some (.process Process.zero) :=
    ((hgrows.heap hg₁).store _ (blockAddr_pos x) hnf).trans hp₁
  set p : Process := { Process.zero with filetype := .elf, data := .elfFile file } with hp'
  have hdata : Meets True (processLoadData path (blockAddr x)) k₁ fun res k' =>
      res = 0 ∧ k' = k₂.put (blockAddr x) (.process p) := by
    refine .bind (Q := fun res k' => res = 0 ∧ k' = k₂.put (blockAddr x) (.process p)) ?_ ?_
    · refine .bind (.of_run_eq (Q := fun r' k' => r' = r ∧ k' = k₂) e₃ ⟨rfl, rfl⟩) ?_
      rintro _ _ ⟨rfl, rfl⟩
      rw [hres, if_neg (lt_irrefl 0), hfile₂, Meets.bind_iff, defined_iff]
      refine ⟨fun file' hfile' => ?_, fun hno => by cases hno⟩
      cases hfile'
      rw [Meets.bind_iff, Kernel.modifyProcess_meets (blockAddr_pos x) hp₂, Meets.pure_iff]
      exact ⟨rfl, rfl⟩
    · rintro _ k₃ ⟨rfl, hk₃⟩
      rw [if_neg (by decide), Meets.pure_iff]
      exact ⟨rfl, hk₃⟩
  obtain ⟨_, _, hdata, rfl, rfl⟩ := hdata.exists_result
  refine ⟨file, k₂.put (blockAddr x) (.process p), ?_, hself, hmem, hfree.of_heapTable rfl,
    hown.of_table rfl, hbytes, ?_⟩
  · rw [processLoadStart, run_bind, e₁, Option.bind_some, run_bind, putObj,
      if_neg (blockAddr_pos x), Option.bind_some, run_bind, ← hk₁, hdata]
    rfl
  · obtain ⟨hneg, -⟩ | ⟨-, p', hloaded⟩ :=
      (processLoadData_meets hg₁ hnf (blockAddr_pos x) hp₁).of_eq hdata
    · exact absurd hneg (lt_irrefl 0)
    · have hstore := hloaded.ext.store _ (blockAddr_pos x) hnf
      rw [Kernel.put_store_self, Kernel.put_store_self, Option.some_inj,
        Obj.process.injEq] at hstore
      obtain rfl : p' = p := hstore.symm
      exact hloaded

namespace StartedAt

variable {file : ElfFile} (h : StartedAt k k₁ M S x s y n file)

include h

/-- The segment can be mapped from where the file is, as long as that stays as it is. -/
theorem mappable (hn : 1 ≤ n) (hy : y + 7 < heapTotalBlocks) {k₂ : Kernel}
    (hk : k₁.KeepsBytes k₂) :
    Process.Mappable { Process.zero with filetype := .elf, data := .elfFile file } k₂.mem := by
  obtain ⟨-, hoff, hnum, -, ho, hv, -, hz, -⟩ :=
    OneSegment.of_fields (headerFields_oneSegment h.bytes)
  have hfits : blockAddr (y + 7) + 4096 ≤ 0x7800000 := by
    unfold blockAddr heapAddress
    unfold heapTotalBlocks at hy
    omega
  have hin : InBuffer k₂.mem file (bytesFrom k₁.mem (blockAddr (y + 7))) 85 4096 := by
    refine ⟨by decide, le_rfl, by rw [h.memory]; omega, fun j hj => ?_⟩
    rw [h.memory]
    exact hk.byte _ (h.buffer.covered (by omega))
  refine hin.mappable (by rw [hoff]; decide) (by rw [hoff, hnum]; decide) rfl fun i hi => ?_
  obtain rfl : i = 0 := by omega
  have hmod := blockAddr_mod (y + 7)
  rw [ho, hv, hz, h.memory]
  generalize blockAddr (y + 7) = a at *
  unfold pagingAlignToLowerPage pagingAlignAddress
  refine ⟨by omega, by omega, ?_, ?_⟩ <;> split_ifs <;> omega

/-- The data of the program is there. -/
theorem ready (hx : k.Answers 9364 x) (hn : 1 ≤ n) (hy : y + 7 + n ≤ z) (hlo : z ≤ lo)
    (hM : lo + 1031 ≤ M) (hroom : ∀ i, lo ≤ i → i < lo + 1031 → S i) (hself : s < y)
    (hprocess : x + 3 ≤ y) (happ : k.Appendable) : LoadReady k₁ (blockAddr x)
      { Process.zero with filetype := .elf, data := .elfFile file } lo where
  ne_zero := blockAddr_pos x
  not_fresh := by
    have ho := hx.owns (show 1 ≤ 9364 by decide)
    exact (h.loaded.ext.owns (show Kernel.Owns _ _ (requestBlocks 9364) from ho)).not_fresh
  store := by
    have ho := hx.owns (show 1 ≤ 9364 by decide)
    rw [h.loaded.ext.store _ (blockAddr_pos x) ho.not_fresh, Kernel.put_store_self]
  typed := trivial
  startable _ := ⟨file, rfl, by rw [h.memory]; exact blockAddr_pos _⟩
  appendable h0 := by
    have hhead : k₁.taskHead = k.taskHead := Kernel.taskHead_of_globals h.loaded.globals
    have htail : k₁.taskTail = k.taskTail := Kernel.taskTail_of_globals h.loaded.globals
    obtain ⟨ht0, htf, q, hq⟩ := happ (hhead ▸ h0)
    have hne : k.taskTail ≠ blockAddr x := fun he => htf (he ▸ hx.fresh)
    have hext : k.Extends k₁ := by
      have hext := h.loaded.ext
      rw [Kernel.put_put] at hext
      exact (hx.ext.put hx.fresh _).trans hext
    rw [htail]
    exact ⟨ht0, fun hf => htf (hext.fresh hf), q, (hext.store _ ht0 htf).trans hq⟩
  mappable k₂ hk := by
    have hM' := h.free.1
    exact h.mappable hn (by omega) hk
  inside := by
    have hM' := h.free.1
    omega
  room i hi hi' := by
    refine (h.free.2 i (by omega)).mpr ⟨⟨hroom i hi hi', by omega, by omega⟩, by omega, by omega⟩

end StartedAt

/-- Every pointer of the space is to one of the blocks that were taken behind the task. -/
theorem TaskLoadedAt.space_block (h : TaskLoadedAt k₁ k' process slot p p' t d f e u w)
    (htaken : ∀ b < heapTotalBlocks, k₁.table.IsFree b → ¬k'.table.IsFree b →
      (u ≤ b ∧ b < u + 4) ∨ (w ≤ b ∧ b < w + 1027)) {q : ℕ}
    (hq : SpacePointer t.pageDirectory d f q) :
    ∃ b, w + 1 ≤ b ∧ b < w + 1027 ∧ q = blockAddr b := by
  have hat := h.at_process
  have hobj : ∃ o, k'.store q = some o ∧ (∀ q, o ≠ .process q) ∧ ∀ t, o ≠ .task t := by
    rcases hq with rfl | rfl | ⟨i, hi, rfl⟩
    · exact ⟨_, hat.maps.chunk, by simp, by simp⟩
    · exact ⟨_, hat.maps.directory, by simp, by simp⟩
    · obtain ⟨g, hg, -⟩ := hat.maps.table i hi
      exact ⟨_, hg, by simp, by simp⟩
  obtain ⟨o, ho, hp, ht⟩ := hobj
  have hprocess : q ≠ process := by
    rintro rfl
    rw [hat.self] at ho
    exact hp _ (Option.some.inj ho).symm
  have htask : q ≠ blockAddr w := by
    rintro rfl
    rw [← h.task_at, hat.task] at ho
    exact ht _ (Option.some.inj ho).symm
  have hstack : q ≠ blockAddr u := by
    rintro rfl
    rw [← h.stack_at, h.stack.store] at ho
    cases ho
  have hpointer : ProcessPointer process p' t d f q := by
    rcases hq with rfl | rfl | ⟨i, hi, rfl⟩
    · exact .chunk
    · exact .directory
    · exact .table hi
  obtain ⟨⟨b, hb, rfl, hfree⟩, b', hb', hheld⟩ := h.space q hpointer hprocess
  obtain rfl := blockAddr_inj.mp hb'
  have hbw : b ≠ w := fun he => htask (by rw [he])
  have hbu : b ≠ u := fun he => hstack (by rw [he])
  have hown := h.stack.owns
  rw [h.stack_at, show requestBlocks userProgramStackSize = 4 by decide] at hown
  obtain ⟨u', hu', hheld'⟩ := hown
  obtain rfl := blockAddr_inj.mp hu'
  -- the four blocks of the stack were taken as well
  have hdisj := hheld.disjoint hheld' hbu
  rcases htaken b hb hfree hheld.not_isFree_start with hin | hin
  · omega
  · exact ⟨b, by omega, hin.2, rfl⟩

/-- The 1026 pointers of the space fill these 1026 blocks. -/
theorem TaskLoadedAt.space_iff (h : TaskLoadedAt k₁ k' process slot p p' t d f e u w)
    (htaken : ∀ b < heapTotalBlocks, k₁.table.IsFree b → ¬k'.table.IsFree b →
      (u ≤ b ∧ b < u + 4) ∨ (w ≤ b ∧ b < w + 1027)) (q : ℕ) :
    SpacePointer t.pageDirectory d f q ↔ ∃ b, w + 1 ≤ b ∧ b < w + 1027 ∧ q = blockAddr b := by
  refine ⟨h.space_block htaken, ?_⟩
  rintro ⟨b, hlo, hhi, rfl⟩
  have hcard := h.at_process.maps.card_spaceBlocks fun q hq => by
    obtain ⟨b, -, -, rfl⟩ := h.space_block htaken hq
    rw [blockOf_blockAddr]
  have hsub : spaceBlocks t.pageDirectory d f ⊆ Finset.Ico (w + 1) (w + 1027) := by
    intro b hb
    obtain ⟨q, hq, rfl⟩ := mem_spaceBlocks.mp hb
    obtain ⟨b, hlo, hhi, rfl⟩ := h.space_block htaken hq
    rw [blockOf_blockAddr]
    exact Finset.mem_Ico.mpr ⟨hlo, hhi⟩
  have heq := Finset.eq_of_subset_of_card_le hsub (by rw [hcard, Nat.card_Ico]; omega)
  obtain ⟨q, hq, hbq⟩ := mem_spaceBlocks.mp (heq ▸ Finset.mem_Ico.mpr ⟨hlo, hhi⟩)
  obtain ⟨b', -, -, rfl⟩ := h.space_block htaken hq
  rw [blockOf_blockAddr] at hbq
  rwa [hbq]

/-- A process that has been loaded, and the blocks of what it has. -/
structure LoadedAt (k k' : Kernel) (M : ℕ) (S : ℕ → Prop) (x s y n slot : ℕ) (p : Process)
    (t : Task) (d : ℕ) (f e : ℕ → ℕ) (file : ElfFile) : Prop
    extends Loaded k k' (blockAddr x) slot p t d f e where
  filetype : p.filetype = .elf
  data_at : p.data = .elfFile file
  self_at : file.self = blockAddr s
  memory_at : file.elfMemory = blockAddr (y + 7)
  stack_at : p.stack = blockAddr (y + 3)
  task_at : p.task = blockAddr (y + 7 + n)
  directory_at : d = blockAddr (y + 7 + n + 1)
  buffer : k'.Owns (blockAddr (y + 7)) n
  space_at : ∀ q, SpacePointer t.pageDirectory d f q ↔
    ∃ b, y + 7 + n + 1 ≤ b ∧ b < y + 7 + n + 1027 ∧ q = blockAddr b
  free : k'.FreeBelow M fun i => Place.rest S x s i ∧ ¬(y ≤ i ∧ i < y + 7 + n + 1027)

/-- The stack goes to where the descriptor was. -/
theorem StartedAt.kzalloc_stack {file : ElfFile} (h : StartedAt k k₁ M S x s y n file)
    (hp : Place S M x s y z) (hz : y + 7 + n ≤ z) :
    k₁.Answers userProgramStackSize (y + 3) ∧ kzalloc userProgramStackSize k₁ =
        some (blockAddr (y + 3), k₁.allocated (y + 3) userProgramStackSize) ∧
      (k₁.allocated (y + 3) userProgramStackSize).Row M (Place.rest S x s) y (y + 7 + n) z := by
  have hblocks : blocksFor userProgramStackSize = 4 := by decide
  obtain ⟨lo, hlo, hM, -⟩ := hp.room
  have hle := hp.self_lt
  have hx := hp.process_le
  have htaken : ∀ i < y, ¬Place.rest S x s i := fun i hi hr => by
    rcases hp.below i hi hr.1 with h₁ | h₁
    · exact hr.2.1 h₁
    · exact hr.2.2 h₁
  have hrow : ∀ i, y ≤ i → i < z → Place.rest S x s i := fun i hi hi' =>
    ⟨hp.row i hi hi', by omega, by omega⟩
  obtain ⟨ha, hn, hk⟩ := h.free.kzalloc_run userProgramStackSize (y + 3) (by decide)
    (by rw [hblocks]; omega) (fun i hi hi' => by
      rw [hblocks] at hi'
      exact ⟨hrow i (by omega) (by omega), by omega, by omega⟩) fun j hj => by
      refine ⟨j, le_rfl, by rw [hblocks]; omega, fun hr => ?_⟩
      by_cases hjy : j < y
      · exact htaken j hjy hr.1
      · exact hr.2.1 ⟨by omega, by omega⟩
  refine ⟨ha, hk, (h.free.allocated hn).congr fun i _ => ?_, by omega, htaken, hrow, by omega⟩
  rw [hblocks]
  constructor
  · rintro ⟨⟨hr, h₁, h₂⟩, h₃⟩
    exact ⟨hr, by omega⟩
  · rintro ⟨hr, hno⟩
    exact ⟨⟨hr, by omega, by omega⟩, by omega⟩

/-- A program is loaded to where first fit puts it. -/
theorem processLoad_row (hg : Guarded k.table) (hslot : FirstFreeSlot k.processes slot)
    (h : k.FreeBelow M S) (hp : Place S M x s y z) (hn : blocksFor (itemFilesize entry) = n)
    (hz : y + 7 + n + 1027 ≤ z) (htotal : heapTotalBlocks ≤ M) (hm : k.Mounted image fp)
    (hfile : ProgramAt image fp path c entry) (happ : k.Appendable) :
    ∃ k' p t d f e file, processLoad path k = some ((0, blockAddr x), k') ∧
      LoadedAt k k' M S x s y n slot p t d f e file := by
  subst hn
  obtain ⟨hx, -, -⟩ := hp.kzalloc_process h
  obtain ⟨file, k₁, hstart, h₁⟩ := processLoadStart_row hg h hp (by omega) hm hfile
  obtain ⟨lo, hlo, hM, hroom⟩ := hp.room
  have hsize := hfile.le_size
  have hblocks : 1 ≤ blocksFor (itemFilesize entry) := by
    unfold blocksFor
    omega
  have hready := h₁.ready hx hblocks (by omega) hlo hM hroom hp.self_lt hp.process_le happ
  obtain ⟨k', p', t', d', f', e', hrun, -, -⟩ := hready.loads path slot
  obtain ⟨hu, hstack, hrow⟩ := h₁.kzalloc_stack hp (by omega)
  obtain ⟨hrow', p, t, d, f, e, htask⟩ := (processLoadTask_row hready.not_fresh hready.ne_zero
    hready.store hready.typed hu hstack hrow hz).of_eq hrun rfl
  obtain ⟨_, _, _, hsame⟩ := htask.same
  refine ⟨k', p, t, d, f, e, file, (processLoad_of_start hslot hstart).trans hrun,
    h₁.loaded.loaded hx htask.toTaskLoaded, ?_, ?_, h₁.self, h₁.memory, htask.stack_at,
    htask.task_at, htask.directory_at, ?_, htask.space_iff fun b hb hfree htaken => ?_, hrow'.free⟩
  · rw [hsame]
  · rw [hsame]
  · have hne : blockAddr (y + 7) ≠ blockAddr x := fun he => by
      have := blockAddr_inj.mp he
      have := hp.process_le
      omega
    exact htask.ext.owns ((h₁.buffer.of_table rfl).of_table (Kernel.setNext_table _ _ _))
  · have hin := (h₁.free.2 b (by omega)).mp hfree
    have hout := fun hr => htaken ((hrow'.free.2 b (by omega)).mpr hr)
    by_contra hno
    exact hout ⟨hin.1, fun hb' => hno (by omega)⟩

end Hyperion
