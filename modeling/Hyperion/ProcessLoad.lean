import Hyperion.KeptBytes
import Hyperion.ProcessHeap
import Hyperion.ProcessMap

/-!
# Loading a process

What `process_load` leaves of a process that it loads (`Loaded`), and what it leaves when it
fails (`LoadFailed`). Either way nothing that was allocated before has changed but the `next`
pointer of the last task.
-/

namespace Hyperion

open Partial FreeRun

variable {k k' k₀ k₁ k₂ : Kernel} {process slot task d b a n c : ℕ} {p p' : Process} {t : Task}
  {f e : ℕ → ℕ} {r : Prop} {filename : List UInt8}

/-- The entries of a new address space : every page leads to itself, for reading. -/
def identityEntries (n : ℕ) : ℕ :=
  n * 4096 % 4294967296 ||| (pagingIsPresent ||| pagingAccessFromAll)

theorem TaskBuilt.maps (h : TaskBuilt k₀ k task process t d f) :
    Maps k t.pageDirectory d f identityEntries :=
  h.space.maps (fun _ hp => hp.1.ne_zero) h.inj

/-- The pointers of a space that was built. -/
theorem TaskBuilt.pointer (h : TaskBuilt k₀ k task process t d f) (hp : p.task = task)
    (hf : k₀.Fresh task) (ho : k.Owns task 1) (ha : ProcessPointer process p t d f a)
    (hne : a ≠ process) : k₀.Fresh a ∧ k.Owns a 1 := by
  cases ha with
  | self => exact absurd rfl hne
  | task => exact ⟨hp ▸ hf, hp ▸ ho⟩
  | chunk => exact ⟨h.space.chunk_mem.1, h.space.chunk_mem.2.1⟩
  | directory => exact ⟨h.space.directory_mem.1, h.space.directory_mem.2.1⟩
  | table hi => exact ⟨(h.space.table _ hi).1.1, (h.space.table _ hi).1.2.1⟩

/-! ## Failure -/

/-- `k'` is `k` after a task was appended to the list and taken out again. -/
structure TaskRemoved (k k' : Kernel) : Prop where
  exists_task : ∃ task t, k.Fresh task ∧ (k.Fresh k.listEnd ∨ t.next = 0) ∧ t.prev = k.listEnd ∧
    (k.setNext k.listEnd t.next).Extends k' ∧
    k'.globals = (k.globals.withTask task).unlinked task t

theorem Kernel.listEnd_of_globals (h : k'.globals = k.globals) : k'.listEnd = k.listEnd := by
  rw [listEnd, listEnd, taskHead_of_globals h, taskTail_of_globals h]

theorem TaskRemoved.since (h : TaskRemoved k k') (hext : k₀.Extends k)
    (hglob : k.globals = k₀.globals) : TaskRemoved k₀ k' := by
  obtain ⟨task, t, hf, hnext, hprev, hext', hglob'⟩ := h
  rw [Kernel.listEnd_of_globals hglob] at hnext hprev hext'
  exact ⟨task, t, hext.fresh hf, hnext.imp_left hext.fresh, hprev, (hext.setNext _ _).trans hext',
    hglob ▸ hglob'⟩

/-- The structure for a process was allocated at block `b`, and the load failed after that. -/
structure LoadFailed (k : Kernel) (b : ℕ) (k' : Kernel) : Prop where
  answers : k.Answers 9364 b
  left : ∃ p, (((k.allocated b 9364).put (blockAddr b) (.process p)).Extends k' ∧
      k'.globals = k.globals) ∨
    TaskRemoved ((k.allocated b 9364).put (blockAddr b) (.process p)) k'

/-! ## Success -/

/-- `k'` is `k` with the process at `process`, which was `p`, completed to `p'`. -/
structure TaskLoaded (k k' : Kernel) (process slot : ℕ) (p p' : Process) (t : Task) (d : ℕ)
    (f e : ℕ → ℕ) : Prop where
  same : ∃ filename stack task, p' =
    { p with filename := filename, stack := stack, pid := slot, task := task }
  stack : Buffer k k' p'.stack userProgramStackSize
  space : ∀ a, ProcessPointer process p' t d f a → a ≠ process → k.Fresh a ∧ k'.Owns a 1
  at_process : ProcessAt k' process p' t d f e
  owner : t.process = process
  next : k.Fresh k.listEnd ∨ t.next = 0
  prev : t.prev = k.listEnd
  mappable : p'.Mappable k'.mem
  entries : e = p'.entries k'.mem identityEntries
  ext : ((k.put process (.process p')).setNext k.listEnd p'.task).Extends k'
  bytes : k.KeepsBytes k'
  globals : k'.globals = { k.globals.withTask p'.task with
    processes := fun i => if i = slot then process else k.processes i }

/-- A task that was built, beside another structure that has changed. -/
theorem TaskBuilt.put {o : Obj} (h : TaskBuilt k₀ k task process t d f) (hf : ¬k₀.Fresh a)
    (hne : a ≠ task) : TaskBuilt k₀ (k.put a o) task process t d f where
  store := (Kernel.put_store _ _ _ _).trans ((if_neg hne.symm).trans h.store)
  process := h.process
  space := h.space.imp (fun _ h => h) (fun _ _ h => h) fun _ hq =>
    if_neg (fun he : _ = a => hf (he ▸ hq.1))
  inj := h.inj

theorem TaskBuilt.since (h : TaskBuilt k₁ k task process t d f)
    (hfresh : ∀ q, k₁.Fresh q → k₀.Fresh q) : TaskBuilt k₀ k task process t d f where
  store := h.store
  process := h.process
  space := h.space.imp (fun _ hq => ⟨hfresh _ hq.1, hq.2⟩) (fun _ _ h => h) fun _ _ => rfl
  inj := h.inj

theorem Kernel.Extends.tables (h : k₀.Extends k) (ht : TablesOnly f k k')
    (hf : ∀ i < 1024, k₀.Fresh (entryAddress (f i))) : k₀.Extends k' where
  keeps := by
    have htable : k'.table = k.table := by simp [table, heap, ht.heapTable]
    exact htable ▸ h.keeps
  store a ha hna := by
    rw [ht.store a fun i hi he => hna (he ▸ hf i hi), h.store a ha hna]

theorem Maps.spaceAt {P : ℕ → Prop} (h : Maps k c d f e) (hc : P c) (hd : P d)
    (ht : ∀ i < 1024, P (entryAddress (f i))) : SpaceAt P (fun _ _ => True) k c d f :=
  ⟨h.chunk, h.directory, hc, hd, fun i hi => ⟨ht i hi, (h.table i hi).elim fun g hg =>
    ⟨g, hg.1, trivial⟩⟩⟩

/-- The process when its stack and its task are there, before its memory is mapped. -/
structure TaskStarted (k k' : Kernel) (process slot : ℕ) (p p' : Process) (t : Task) (d : ℕ)
    (f : ℕ → ℕ) : Prop where
  same : ∃ filename stack task, p' =
    { p with filename := filename, stack := stack, pid := slot, task := task }
  stack : Buffer k k' p'.stack userProgramStackSize
  fresh : k.Fresh p'.task
  owns : k'.Owns p'.task 1
  next : k.Fresh k.listEnd ∨ t.next = 0
  prev : t.prev = k.listEnd
  built : TaskBuilt k k' p'.task process t d f
  self : k'.store process = some (.process p')
  ext : ((k.put process (.process p')).setNext k.listEnd p'.task).Extends k'
  bytes : k.KeepsBytes k'
  globals : k'.globals = k.globals.withTask p'.task

/-- A stack at block `b` and a task for the process. -/
theorem processLoadTask_start (filename : List UInt8) (slot : ℕ) (hf : ¬k.Fresh process)
    (hp0 : process ≠ 0) (hp : k.store process = some (.process p))
    (hb : k.Answers userProgramStackSize b)
    (hr : r → k.Roomy c ∧ c + 1031 ≤ heapTotalBlocks ∧ k.Appendable ∧ p.Startable) :
    Meets r (do
      modifyProcess process fun p =>
        { p with filename := filename.take (maxPath - 1), stack := blockAddr b, pid := slot }
      let task ← taskNew process
      return task) (k.allocated b userProgramStackSize) fun task k' =>
        asSigned task ≠ 0 ∧ (r → k'.Roomy (c + 1031)) ∧
        ∃ p₁ t d f, k'.store process = some (.process p₁) ∧
          TaskStarted k (k'.put process (.process { p₁ with task := task })) process slot p
            { p₁ with task := task } t d f := by
  set p₁ : Process :=
    { p with filename := filename.take (maxPath - 1), stack := blockAddr b, pid := slot } with hp₁
  have hne : process ≠ blockAddr b := fun he => hf (he ▸ hb.fresh)
  have hstore : (k.allocated b userProgramStackSize).store process = some (.process p) := by
    rw [Kernel.allocated_store, if_neg (fun he => hne he.1), hp]
  have hnf : ¬(k.allocated b userProgramStackSize).Fresh process := fun h => hf (hb.ext.fresh h)
  rw [Meets.bind_iff, Kernel.modifyProcess_meets hp0 hstore, ← hp₁]
  set k₁ := (k.allocated b userProgramStackSize).put process (.process p₁) with hk₁
  have hext₁ : (k.put process (.process p₁)).Extends k₁ := hb.ext.put_both _ _
  have hnf₁ : ¬k₁.Fresh process := hnf
  have hstore₁ : k₁.store process = some (.process p₁) := Kernel.put_store_self _ _ _
  have hbytes₁ : k.KeepsBytes k₁ :=
    (Kernel.KeepsBytes.allocated hb).trans (.of_eq rfl rfl)
  refine ((taskNew_meets (c := c + 4) (k := k₁) fun h => ?_).and_liberal
    taskNew_keepsBytes).mono ?_
  · obtain ⟨hroom, hc, happ, hstart⟩ := hr h
    have hcount := k.freeBlocks_allocated b userProgramStackSize
    have hblocks : requestBlocks userProgramStackSize = 4 := by decide
    have hle := hroom.le
    refine ⟨⟨?_, by omega⟩, hp0, hnf₁, ⟨p₁, hstore₁, hstart⟩, fun h0 => ?_⟩
    · have hroom₁ : (k.allocated b userProgramStackSize).Roomy (c + 4) := ⟨by omega⟩
      exact hroom₁.of_heapTable rfl
    · obtain ⟨htail0, htailf, q, hq⟩ := happ h0
      refine ⟨htail0, fun h' => htailf (hb.ext.fresh h'), q, ?_⟩
      refine (hext₁.store _ htail0 htailf).trans ?_
      rw [Kernel.put_store, if_neg, hq]
      rintro he
      rw [he, hp] at hq
      cases hq
  · rintro task k₂ ⟨⟨⟨t, d, f, h₂⟩, -, hroom₂⟩, hbytes₂⟩
    have hend : k₁.listEnd = k.listEnd := Kernel.listEnd_of_globals rfl
    have hself : k₂.store process = some (.process p₁) :=
      h₂.ext.store_setNext hp0 hnf₁ hstore₁ (by simp)
    have hnt : process ≠ task := fun he => hnf₁ (he ▸ h₂.fresh)
    refine ⟨?_, fun h => hroom₂ h, p₁, t, d, f, hself,
      ⟨⟨_, _, _, rfl⟩, ?_, hb.ext.fresh h₂.fresh, h₂.owns, ?_, ?_, ?_,
      Kernel.put_store_self _ _ _, ?_, (hbytes₁.trans hbytes₂).trans (.of_eq rfl rfl),
      h₂.globals⟩⟩
    · obtain ⟨b', hb', rfl, -⟩ := h₂.fresh
      have hlt := blockAddr_lt hb'
      have hne0 := blockAddr_pos b'
      rw [asSigned_of_lt (by omega)]
      omega
    · have hbuf : Buffer k k₁ (blockAddr b) userProgramStackSize := (hb.buffer (by decide)).put hf _
      refine Buffer.put ⟨hbuf.pos, hbuf.fresh, ?_, ?_⟩ hf _
      · exact h₂.ext.owns (hbuf.owns.of_table (k₁.setNext_table _ _))
      · exact h₂.ext.store_setNext hbuf.fresh.ne_zero hbuf.owns.not_fresh hbuf.store (by simp)
    · rw [← hend]
      exact h₂.next.imp_left hb.ext.fresh
    · rw [← hend]
      exact h₂.prev
    · exact (h₂.built.since fun _ hq => hb.ext.fresh hq).put hf hnt
    · have hcomm : (k₁.put process (.process { p₁ with task := task })).setNext k.listEnd task =
          (k₁.setNext k.listEnd task).put process (.process { p₁ with task := task }) :=
        Kernel.put_setNext hstore₁
      rw [hk₁, Kernel.put_put] at hcomm
      have hext₂ := h₂.ext.put_both process (.process { p₁ with task := task })
      rw [hend, ← hcomm] at hext₂
      exact ((hb.ext.put_both _ _).setNext _ _).trans hext₂

/-- The space of the task is there. -/
theorem TaskStarted.at_process (h : TaskStarted k k' process slot p p' t d f) (hp0 : process ≠ 0) :
    ProcessAt k' process p' t d f identityEntries :=
  ⟨hp0, h.fresh.ne_zero, h.self, h.built.store, h.built.maps⟩

theorem TaskStarted.pointer (h : TaskStarted k k' process slot p p' t d f)
    (ha : ProcessPointer process p' t d f a) (hne : a ≠ process) : k.Fresh a ∧ k'.Owns a 1 :=
  h.built.pointer rfl h.fresh h.owns ha hne

theorem TaskStarted.typed (h : TaskStarted k k' process slot p p' t d f) (hp : p.Typed) :
    p'.Typed := by
  obtain ⟨filename, stack, task, rfl⟩ := h.same
  exact hp

/-- The mapping failed, and the task is freed. -/
theorem TaskStarted.removed (h : TaskStarted k k₁ process slot p p' t d f)
    (hp : k.store process = some (.process p)) (ht : TablesOnly f k₁ k₂)
    (hat : ProcessAt k₂ process p' t d f e) (hr : r → k.Appendable) :
    Meets r (taskFree p'.task) k₂ fun _ k₃ => TaskRemoved (k.put process (.process p')) k₃ := by
  have hmem {q : ℕ} (hq : k.Fresh q ∧ k₁.Owns q 1 ∧ q ≠ p'.task) :
      (k.put process (.process p')).Fresh q ∧ q ≠ p'.task := ⟨hq.1, hq.2.2⟩
  refine (taskFree_last (k := k.put process (.process p')) h.fresh h.prev
    (h.ext.tables ht fun i hi => Kernel.fresh_setNext.mpr (h.built.space.table i hi).1.1) hat.task
    ⟨d, f, hat.maps.spaceAt (hmem h.built.space.chunk_mem) (hmem h.built.space.directory_mem)
      fun i hi => hmem (h.built.space.table i hi).1⟩ fun hr' hend => ?_).mono ?_
  · have h0 : k.taskHead ≠ 0 := fun h0 => hend (if_pos h0)
    have htail : k.listEnd = k.taskTail := if_neg h0
    obtain ⟨-, hnf, q, hq⟩ := hr hr' h0
    rw [← htail] at hnf hq
    refine ⟨hnf, q, ?_⟩
    refine (Kernel.put_store _ _ _ _).trans ((if_neg fun he => ?_).trans hq)
    have he' : k.listEnd = process := he
    rw [he', hp] at hq
    cases hq
  · rintro _ k₃ ⟨hext, hglob⟩
    refine ⟨p'.task, t, h.fresh, h.next, h.prev, hext, ?_⟩
    rw [hglob, ht.globals, h.globals]
    rfl

/-- The mapping succeeded. -/
theorem TaskStarted.loaded (h : TaskStarted k k₁ process slot p p' t d f)
    (ht : TablesOnly f k₁ k₂) (hm : p'.Mappable k₁.mem)
    (hat : ProcessAt k₂ process p' t d f (p'.entries k₁.mem identityEntries)) :
    TaskLoaded k { k₂ with processes := fun i => if i = slot then process else k₂.processes i }
      process slot p p' t d f (p'.entries k₁.mem identityEntries) where
  same := h.same
  stack := by
    have hs := h.stack
    have htable : k₂.table = k₁.table := by simp [Kernel.table, Kernel.heap, ht.heapTable]
    refine ⟨hs.pos, hs.fresh, (hs.owns.of_table htable : Kernel.Owns k₂ _ _), ?_⟩
    refine (ht.store _ fun i hi he => ?_).trans hs.store
    obtain ⟨-, g, hg, -⟩ := h.built.space.table i hi
    rw [← he, hs.store] at hg
    cases hg
  space a ha hne := by
    have htable : k₂.table = k₁.table := by simp [Kernel.table, Kernel.heap, ht.heapTable]
    obtain ⟨hfr, ho⟩ := h.pointer ha hne
    exact ⟨hfr, (ho.of_table htable : Kernel.Owns k₂ _ _)⟩
  at_process := hat.congr fun _ _ => rfl
  owner := h.built.process
  next := h.next
  prev := h.prev
  mappable := by
    rw [← ht.mem] at hm
    exact hm
  entries := by
    rw [← ht.mem]
  ext := by
    have hext := h.ext.tables ht fun i hi => Kernel.fresh_setNext.mpr
      (h.built.space.table i hi).1.1
    exact hext.of_eq rfl rfl
  bytes := h.bytes.trans (.of_eq ht.heapTable ht.mem)
  globals := by
    have hglob := ht.globals.trans h.globals
    rw [← hglob]
    have hproc : k₂.processes = k.processes := by
      show k₂.globals.processes = (k.globals.withTask p'.task).processes
      rw [hglob]
    rw [← hproc]
    rfl

/-- An answer of `kzalloc`, and that it has one. -/
theorem Kernel.kzalloc_answers {size : ℕ}
    (hr : r → ∃ b, kzalloc size k = some (blockAddr b, k.allocated b size)) :
    Meets r (kzalloc size) k fun a k' =>
      (a = 0 ∧ k' = k ∧ kzalloc size k = some (0, k)) ∨
        ∃ b, k.Answers size b ∧ a = blockAddr b ∧ k' = k.allocated b size := by
  refine .of_liberal ((Meets.self.and (Kernel.kzalloc_rule (Q := fun a k' => (a = 0 ∧ k' = k) ∨
    ∃ b, k.Answers size b ∧ a = blockAddr b ∧ k' = k.allocated b size) (.inl ⟨rfl, rfl⟩)
      fun b hb => .inr ⟨b, hb, rfl, rfl⟩)).mono ?_) fun h => ?_
  · rintro _ _ ⟨he, ⟨rfl, rfl⟩ | hb⟩
    · exact .inl ⟨rfl, rfl, he⟩
    · exact .inr hb
  · obtain ⟨b, hb⟩ := hr h
    exact ⟨_, _, hb⟩

theorem processLoadTask_meets (hf : ¬k.Fresh process) (hp0 : process ≠ 0)
    (hp : k.store process = some (.process p)) (htyped : p.Typed)
    (hr : r → (∃ b, kzalloc userProgramStackSize k =
        some (blockAddr b, k.allocated b userProgramStackSize)) ∧ k.Roomy c ∧
      c + 1031 ≤ heapTotalBlocks ∧ k.Appendable ∧ p.Startable) :
    Meets r (processLoadTask filename process slot) k fun res k' =>
      (res = (-ENOMEM, 0) ∧ k' = k ∧ kzalloc userProgramStackSize k = some (0, k)) ∨
      (res.1 < 0 ∧ ∃ p' k₁, p'.data = p.data ∧ k.KeepsBytes k₁ ∧ ¬p'.Mappable k₁.mem ∧
        TaskRemoved (k.put process (.process p')) k') ∨
      (res = (0, process) ∧ (r → k'.Roomy (c + 1031)) ∧
        ∃ p' t d f e, TaskLoaded k k' process slot p p' t d f e) := by
  have hstack : Meets r (kzalloc userProgramStackSize) k _ :=
    Kernel.kzalloc_answers fun h => (hr h).1
  rw [processLoadTask]
  refine .bind hstack ?_
  rintro _ _ (⟨rfl, rfl, he⟩ | ⟨b, hb, rfl, rfl⟩)
  · exact Meets.ite_iff.mpr ⟨fun _ => Meets.pure_iff.mpr (.inl ⟨rfl, rfl, he⟩),
      fun h => absurd rfl h⟩
  · refine Meets.ite_iff.mpr ⟨fun h => absurd h (blockAddr_pos b), fun _ => ?_⟩
    have hstart := processLoadTask_start filename slot (c := c) hf hp0 hp hb
      (r := r) fun h => (hr h).2
    rw [Meets.bind_iff] at hstart ⊢
    refine hstart.mono fun _ k₁ hnew => .bind hnew ?_
    rintro task k₂ ⟨htask, hroom, p₁, t, d, f, hp₁, h⟩
    have hat := h.at_process hp0
    rw [if_neg htask, Meets.bind_iff, Kernel.modifyProcess_meets hp0 hp₁]
    have htyped' : Process.Typed { p₁ with task := task } := h.typed htyped
    refine .bind (processMapMemory_meets hat htyped') ?_
    rintro res k₃ ⟨ht, ⟨rfl, hm, hat₃⟩ | ⟨hneg, hm, e', hat₃⟩⟩
    · rw [if_neg (lt_irrefl 0)]
      refine Meets.bind_iff.mpr
        (Meets.modify_iff.mpr (Meets.pure_iff.mpr (.inr (.inr ⟨rfl, ?_, ?_⟩))))
      · exact fun hr' => (hroom hr').of_heapTable ht.heapTable
      · exact ⟨_, t, d, f, _, h.loaded ht hm hat₃⟩
    · rw [if_pos hneg]
      refine .bind (h.removed hp ht hat₃ fun h => (hr h).2.2.2.1) fun _ k₄ hk₄ => ?_
      refine Meets.pure_iff.mpr (.inr (.inl ⟨hneg, _, _, ?_, h.bytes, hm, hk₄⟩))
      obtain ⟨_, _, _, hsame⟩ := h.same
      rw [hsame]

/-- The data of the process `p` is there, and there is room for the rest. -/
structure LoadReady (k : Kernel) (process : ℕ) (p : Process) (lo : ℕ) : Prop where
  ne_zero : process ≠ 0
  not_fresh : ¬k.Fresh process
  store : k.store process = some (.process p)
  typed : p.Typed
  startable : p.Startable
  appendable : k.Appendable
  mappable : ∀ k₁, k.KeepsBytes k₁ → p.Mappable k₁.mem
  inside : lo + 1031 ≤ heapTotalBlocks
  room : ∀ b, lo ≤ b → b < lo + 1031 → k.table.IsFree b

theorem Process.Mappable.congr {m : ℕ → UInt8} (h : p.Mappable m) (hd : p'.data = p.data) :
    p'.Mappable m := fun file hf => h file (hd ▸ hf)

/-- Then nothing fails. -/
theorem LoadReady.loads {lo : ℕ} (h : LoadReady k process p lo) (filename : List UInt8)
    (slot : ℕ) : ∃ k' p' t d f e, processLoadTask filename process slot k =
      some ((0, process), k') ∧ TaskLoaded k k' process slot p p' t d f e ∧
      k.freeBlocks ≤ k'.freeBlocks + 1031 := by
  have hinside := h.inside
  have hfree := Kernel.le_freeBlocks h.room hinside
  have hle := k.freeBlocks_le
  have hblocks : blocksFor userProgramStackSize = 4 := by decide
  obtain ⟨b, -, -, hb⟩ := Kernel.kzalloc_hasRun (show 1 ≤ userProgramStackSize by decide)
    ⟨lo, by rw [hblocks]; omega, fun i hi hi' => h.room i hi (by rw [hblocks] at hi'; omega)⟩
  have htotal : Meets True (processLoadTask filename process slot) k _ :=
    processLoadTask_meets (c := heapTotalBlocks - k.freeBlocks) h.not_fresh h.ne_zero h.store
      h.typed fun _ => ⟨⟨b, hb⟩, ⟨by omega⟩, by omega, h.appendable, h.startable⟩
  obtain ⟨x, k', hrun, ⟨-, -, hnull⟩ | ⟨-, p', k₁, hd, hbytes, hno, -⟩ |
    ⟨rfl, hroom, p', t, d, f, e, ht⟩⟩ := htotal.exists_result
  · rw [hb] at hnull
    exact absurd (congrArg Prod.fst (Option.some.inj hnull)) (blockAddr_pos b)
  · exact absurd ((h.mappable k₁ hbytes).congr hd) hno
  · have hroom' := (hroom trivial).le
    exact ⟨k', p', t, d, f, e, hrun, ht, by omega⟩

/-! ## `process_load` -/

/-- The pointers to the data of a process. -/
inductive Process.DataPointer (p : Process) : ℕ → Prop
  | ptr {a : ℕ} : p.data = .ptr a → DataPointer p a
  | elfSelf {file : ElfFile} : p.data = .elfFile file → DataPointer p file.self
  | elfMemory {file : ElfFile} : p.data = .elfFile file → DataPointer p file.elfMemory

/-- `k'` is `k` with the process `p` in slot `slot`, whose structure is at `process`. -/
structure Loaded (k k' : Kernel) (process slot : ℕ) (p : Process) (t : Task) (d : ℕ)
    (f e : ℕ → ℕ) : Prop where
  fresh : k.Fresh process
  owns : k'.Owns process 3
  same : ∃ filename stack task filetype data size, p = { Process.zero with
    filename := filename, stack := stack, pid := slot, task := task, filetype := filetype,
    data := data, size := size }
  data : p.DataBlocks k k'
  stack : Buffer k k' p.stack userProgramStackSize
  stack_ne : ∀ a, p.DataPointer a → a ≠ p.stack
  space : ∀ a, ProcessPointer process p t d f a → a ≠ process → k.Fresh a ∧ k'.Owns a 1
  at_process : ProcessAt k' process p t d f e
  owner : t.process = process
  next : k.Fresh k.listEnd ∨ t.next = 0
  prev : t.prev = k.listEnd
  mappable : p.Mappable k'.mem
  entries : e = p.entries k'.mem identityEntries
  ext : (k.setNext k.listEnd p.task).Extends k'
  self : ∃ b, process = blockAddr b ∧ k.Answers 9364 b ∧
    (((k.allocated b 9364).put process (.process p)).setNext k.listEnd p.task).Extends k'
  globals : k'.globals = { k.globals.withTask p.task with
    processes := fun i => if i = slot then process else k.processes i }

/-- The pointers to the data are those of its blocks. -/
theorem Process.DataBlocks.pointer (h : p.DataBlocks k k') (ha : p.DataPointer a) :
    ∃ n, Buffer k k' a n := by
  cases h with
  | binary _ hd hb =>
    cases ha with
    | ptr he =>
      rw [hd] at he
      cases he
      exact ⟨_, hb⟩
    | elfSelf he => rw [hd] at he; cases he
    | elfMemory he => rw [hd] at he; cases he
  | elf _ hd hb =>
    cases ha with
    | ptr he => rw [hd] at he; cases he
    | elfSelf he =>
      rw [hd] at he
      cases he
      exact ⟨_, hb.self⟩
    | elfMemory he =>
      rw [hd] at he
      cases he
      exact ⟨_, hb.memory⟩

theorem Process.DataPointer.congr (ha : p'.DataPointer a) (h : p'.data = p.data) :
    p.DataPointer a := by
  cases ha with
  | ptr he => exact .ptr (h ▸ he)
  | elfSelf he => exact .elfSelf (h ▸ he)
  | elfMemory he => exact .elfMemory (h ▸ he)

theorem Process.DataBlocks.congr (h : p.DataBlocks k k') (ht : p'.filetype = p.filetype)
    (hd : p'.data = p.data) (hs : p'.size = p.size) : p'.DataBlocks k k' := by
  cases h with
  | binary ht' hd' hb => exact .binary (ht.trans ht') (hd.trans hd') (hs ▸ hb)
  | elf ht' hd' hb => exact .elf (ht.trans ht') (hd.trans hd') hb

theorem Process.DataBlocks.typed (h : p.DataBlocks k k') : p.Typed := by
  unfold Process.Typed
  cases h with
  | binary ht hd _ => rw [ht, hd]; trivial
  | elf ht hd _ => rw [ht, hd]; trivial

/-- The structure of the process, at block `b`, and its data. -/
theorem DataLoaded.loaded (hb : k.Answers 9364 b)
    (hdata : DataLoaded ((k.allocated b 9364).put (blockAddr b) (.process Process.zero)) k₁
      (blockAddr b) Process.zero p)
    (htask : TaskLoaded k₁ k' (blockAddr b) slot p p' t d f e) :
    Loaded k k' (blockAddr b) slot p' t d f e := by
  obtain ⟨_, _, _, hsame₁⟩ := hdata.same
  obtain ⟨filename, stack, task, hsame₂⟩ := htask.same
  have hext₀ : k.Extends ((k.allocated b 9364).put (blockAddr b) (.process Process.zero)) :=
    hb.ext.put hb.fresh _
  have hext₁ : k.Extends k₁ := by
    have h := hdata.ext
    rw [Kernel.put_put] at h
    exact (hb.ext.put hb.fresh _).trans h
  have hends : k₁.listEnd = k.listEnd := Kernel.listEnd_of_globals hdata.globals
  have hext₂ := htask.ext
  rw [hends] at hext₂
  have howns₁ : k₁.Owns (blockAddr b) 3 := by
    have hself := hb.owns (show 1 ≤ 9364 by decide)
    exact hdata.ext.owns (show Kernel.Owns _ _ (requestBlocks 9364) from hself)
  have hkeep {q n : ℕ} (ho : k₁.Owns q n) : k'.Owns q n := hext₂.owns (ho.of_table (by simp))
  have hbuf {q n : ℕ} (hq : Buffer ((k.allocated b 9364).put (blockAddr b)
      (.process Process.zero)) k₁ q n) : Buffer k k' q n := by
    have hne : q ≠ blockAddr b := fun he => (hb.owns (by decide)).not_fresh (he ▸ hq.fresh)
    refine ⟨hq.pos, hext₀.fresh hq.fresh, hkeep hq.owns, ?_⟩
    refine hext₂.store_setNext hq.owns.ne_zero hq.owns.not_fresh ?_ (by simp)
    rw [Kernel.put_store, if_neg hne, hq.store]
  refine ⟨hb.fresh, hkeep howns₁, ?_, ?_, ?_, fun a ha he => ?_, fun a ha hne => ?_,
    htask.at_process, htask.owner, htask.next.imp_left ?_, htask.prev.trans hends, htask.mappable,
    htask.entries, ?_, ⟨b, rfl, hb, ?_⟩, ?_⟩
  · exact ⟨filename, stack, task, _, _, _, by rw [hsame₂, hsame₁]⟩
  · refine Process.DataBlocks.congr (p := p) ?_ (by rw [hsame₂]) (by rw [hsame₂]) (by rw [hsame₂])
    cases hdata.data with
    | binary ht hd hq => exact .binary ht hd (hbuf hq)
    | elf ht hd hq => exact .elf ht hd ⟨hbuf hq.self, hbuf hq.memory, hq.ne⟩
  · have hs := htask.stack
    exact ⟨hs.pos, hext₁.fresh hs.fresh, hs.owns, hs.store⟩
  · obtain ⟨n, hq⟩ := hdata.data.pointer (ha.congr (by rw [hsame₂]))
    exact hq.owns.not_fresh (he ▸ htask.stack.fresh)
  · obtain ⟨hf, ho⟩ := htask.space a ha hne
    exact ⟨hext₁.fresh hf, ho⟩
  · rw [hends]
    exact fun h => hext₁.fresh h
  · exact ((hext₁.put hb.fresh _).setNext _ _).trans hext₂
  · have h := (hdata.ext.put_both (blockAddr b) (.process p')).setNext k.listEnd p'.task
    rw [Kernel.put_put, Kernel.put_put] at h
    exact h.trans hext₂
  · have hglob : k₁.globals = k.globals := hdata.globals
    have hproc : k₁.processes = k.processes := by
      show k₁.globals.processes = k.globals.processes
      rw [hglob]
    rw [htask.globals, hglob, hproc]

/-- What `process_load_for_slot` leaves. -/
theorem processLoadForSlot_meets (hg : Guarded k.table) (hslot : slot < maxProcesses) :
    Meets False (processLoadForSlot filename slot) k fun x k' =>
      (x.1 < 0 ∧ k' = k ∧ (k.processes slot ≠ 0 ∨ kzalloc 9364 k = some (0, k))) ∨
      (x.1 < 0 ∧ ∃ b, LoadFailed k b k') ∨
      ∃ p t d f e, x.1 = 0 ∧ Loaded k k' x.2 slot p t d f e := by
  have hget : processGet slot k = some (k.processes slot, k) := by
    have hin : ¬((slot : Int) < 0 ∨ (maxProcesses : Int) ≤ slot) := by omega
    simp only [processGet, run_bind, run_get, Option.bind_some, if_neg hin, run_pure,
      Int.toNat_natCast]
  rw [processLoadForSlot]
  refine .bind (.of_run_eq (Q := fun a k' => k.processes slot = a ∧ k = k') hget ⟨rfl, rfl⟩) ?_
  rintro _ _ ⟨rfl, rfl⟩
  refine Meets.ite_iff.mpr ⟨fun ht => Meets.pure_iff.mpr (.inl ⟨by decide, rfl, .inl ht⟩),
    fun _ => ?_⟩
  refine .bind (Kernel.kzalloc_answers False.elim) ?_
  rintro _ _ (⟨rfl, rfl, he⟩ | ⟨b, hb, rfl, rfl⟩)
  · exact Meets.ite_iff.mpr ⟨fun _ => Meets.pure_iff.mpr (.inl ⟨by decide, rfl, .inr he⟩),
      fun h => absurd rfl h⟩
  refine Meets.ite_iff.mpr ⟨fun h => absurd h (blockAddr_pos b), fun _ => ?_⟩
  rw [Meets.bind_iff, Kernel.putObj_meets, if_neg (blockAddr_pos b)]
  have hself := hb.owns (show 1 ≤ 9364 by decide)
  have hg₁ : Guarded (k.allocated b 9364).table := hb.ext.keeps.guarded hg
  have hdata : Meets False (processLoadData filename (blockAddr b))
      ((k.allocated b 9364).put (blockAddr b) (.process Process.zero)) _ :=
    processLoadData_meets hg₁ hself.not_fresh (blockAddr_pos b) (Kernel.put_store_self _ _ _)
  refine .bind hdata ?_
  rintro res k₁ (⟨hneg, hgrows⟩ | ⟨rfl, p, hloaded⟩)
  · rw [if_pos hneg, Meets.pure_iff]
    exact .inr (.inl ⟨hneg, b, hb, _, .inl ⟨hgrows.heap hg₁, hgrows.globals⟩⟩)
  · rw [if_neg (lt_irrefl 0)]
    have hp := hloaded.ext
    rw [Kernel.put_put] at hp
    have hstore : k₁.store (blockAddr b) = some (.process p) := by
      rw [hp.store _ (blockAddr_pos b) hself.not_fresh, Kernel.put_store_self]
    refine (processLoadTask_meets (c := 0) (hp.owns hself).not_fresh (blockAddr_pos b) hstore
      hloaded.data.typed False.elim).mono ?_
    rintro ⟨res, process⟩ k' (⟨he, rfl, -⟩ | ⟨hneg, p', _, -, -, -, hrem⟩ |
      ⟨he, -, p', t, d, f, e, h⟩)
    · cases he
      exact .inr (.inl ⟨by decide, b, hb, p, .inl ⟨hp, hloaded.globals⟩⟩)
    · refine .inr (.inl ⟨hneg, b, hb, p', .inr (hrem.since ?_ hloaded.globals)⟩)
      have h := hp.put_both (blockAddr b) (.process p')
      rwa [Kernel.put_put] at h
    · cases he
      exact .inr (.inr ⟨p', t, d, f, e, rfl, hloaded.loaded hb h⟩)

/-- The first slot that is free. -/
structure FirstFreeSlot (processes : ℕ → ℕ) (slot : ℕ) : Prop where
  lt : slot < maxProcesses
  free : processes slot = 0
  first : ∀ i < slot, processes i ≠ 0

/-- The search answers the first free slot, or that there is none. -/
theorem processGetFreeSlotLoop_cases (processes : ℕ → ℕ) : ∀ fuel i : ℕ,
    i + fuel = maxProcesses → (∀ j < i, processes j ≠ 0) →
    (∃ slot : ℕ, processGetFreeSlotLoop processes fuel i = slot ∧ FirstFreeSlot processes slot) ∨
      (processGetFreeSlotLoop processes fuel i = -EISTKN ∧ ∀ j < maxProcesses, processes j ≠ 0)
  | 0, i, hi, hall => .inr ⟨rfl, fun j hj => hall j (by omega)⟩
  | fuel + 1, i, hi, hall => by
    rw [processGetFreeSlotLoop]
    split_ifs with h
    · exact .inl ⟨i, rfl, by omega, h, hall⟩
    · refine processGetFreeSlotLoop_cases processes fuel (i + 1) (by omega) fun j hj => ?_
      rcases Nat.lt_succ_iff_lt_or_eq.mp hj with hlt | rfl
      · exact hall j hlt
      · exact h

/-- What `process_load` leaves. -/
theorem processLoad_meets (hg : Guarded k.table) :
    Meets False (processLoad filename) k fun x k' =>
      (x.1 < 0 ∧ k' = k ∧ ((∀ i < maxProcesses, k.processes i ≠ 0) ∨
        kzalloc 9364 k = some (0, k))) ∨
      (x.1 < 0 ∧ (∃ i < maxProcesses, k.processes i = 0) ∧ ∃ b, LoadFailed k b k') ∨
      ∃ slot p t d f e, x.1 = 0 ∧ FirstFreeSlot k.processes slot ∧
        Loaded k k' x.2 slot p t d f e := by
  rw [processLoad, Meets.bind_iff, Meets.get_iff]
  rcases processGetFreeSlotLoop_cases k.processes maxProcesses 0 (Nat.zero_add _) (by simp) with
    ⟨slot, he, hslot⟩ | ⟨he, hall⟩
  · have hget : processGetFreeSlot k.processes = slot := he
    rw [hget, if_neg (by omega), Int.toNat_natCast]
    refine (processLoadForSlot_meets hg hslot.lt).mono ?_
    rintro x k' (⟨hneg, rfl, hno | hno⟩ | ⟨hneg, hb⟩ | ⟨p, t, d, f, e, hres, h⟩)
    · exact absurd hslot.free hno
    · exact .inl ⟨hneg, rfl, .inr hno⟩
    · exact .inr (.inl ⟨hneg, ⟨slot, hslot.lt, hslot.free⟩, hb⟩)
    · exact .inr (.inr ⟨slot, p, t, d, f, e, hres, hslot, h⟩)
  · have hget : processGetFreeSlot k.processes = -EISTKN := he
    rw [hget, if_pos (by decide), Meets.pure_iff]
    exact .inl ⟨by decide, rfl, .inl hall⟩

/-- What `process_load_switch` leaves. -/
theorem processLoadSwitch_meets (hg : Guarded k.table) :
    Meets False (processLoadSwitch filename) k fun x k' =>
      (x.1 < 0 ∧ k' = k ∧ ((∀ i < maxProcesses, k.processes i ≠ 0) ∨
        kzalloc 9364 k = some (0, k))) ∨
      (x.1 < 0 ∧ (∃ i < maxProcesses, k.processes i = 0) ∧ ∃ b, LoadFailed k b k') ∨
      ∃ k₁ slot p t d f e, x.1 = 0 ∧ FirstFreeSlot k.processes slot ∧
        Loaded k k₁ x.2 slot p t d f e ∧ k' = { k₁ with currentProcess := x.2 } := by
  refine .bind (processLoad_meets hg) ?_
  rintro ⟨res, process⟩ k₁ h
  simp only [Meets.bind_iff, Meets.ite_iff, Meets.pure_iff, processSwitch, Meets.modify_iff]
  rcases h with ⟨hneg, hk, hwhy⟩ | ⟨hneg, hfree, hb⟩ | ⟨slot, p, t, d, f, e, hres, hslot, h⟩
  · exact ⟨fun h => absurd hneg (by omega), fun _ => .inl ⟨hneg, hk, hwhy⟩⟩
  · exact ⟨fun h => absurd hneg (by omega), fun _ => .inr (.inl ⟨hneg, hfree, hb⟩)⟩
  · exact ⟨fun _ => .inr (.inr ⟨k₁, slot, p, t, d, f, e, hres, hslot, h, rfl⟩),
      fun hne => absurd hres hne⟩

/-- `process_load_for_slot` as far as the data. -/
def processLoadStart (filename : List UInt8) : KernelM (Int × ℕ) := do
  let process ← kzalloc 9364
  putObj process (.process Process.zero)
  let res ← processLoadData filename process
  return (res, process)

/-- `process_load` takes the first free slot. -/
theorem processLoad_of_slot (hslot : FirstFreeSlot k.processes slot) :
    processLoad filename k = processLoadForSlot filename slot k := by
  have hget : processGetFreeSlot k.processes = slot := by
    rcases processGetFreeSlotLoop_cases k.processes maxProcesses 0 (Nat.zero_add _) (by simp) with
      ⟨slot', he, hslot'⟩ | ⟨-, hall⟩
    · have heq : slot' = slot := by
        rcases Nat.lt_trichotomy slot' slot with hlt | heq | hlt
        · exact absurd hslot'.free (hslot.first _ hlt)
        · exact heq
        · exact absurd hslot.free (hslot'.first _ hlt)
      exact heq ▸ he
    · exact absurd hslot.free (hall slot hslot.lt)
  simp only [processLoad, run_bind, run_get, Option.bind_some, hget,
    if_neg (show ¬(slot : Int) < 0 by omega), Int.toNat_natCast]

/-- A load whose data is there goes on with the task. -/
theorem processLoad_of_start (hslot : FirstFreeSlot k.processes slot)
    (h : processLoadStart filename k = some ((0, process), k₁)) :
    processLoad filename k = processLoadTask filename process slot k₁ := by
  obtain ⟨process₀, k₂, hself, h⟩ := bind_eq_some.mp h
  obtain ⟨_, k₃, hput, h⟩ := bind_eq_some.mp h
  obtain ⟨res, k₄, hdata, h⟩ := bind_eq_some.mp h
  cases h
  have hne : process ≠ 0 := by
    rintro rfl
    cases hput
  have hin : ¬((slot : Int) < 0 ∨ (maxProcesses : Int) ≤ slot) := by
    have := hslot.lt
    omega
  simp only [processLoad_of_slot hslot, run_bind, run_get, Option.bind_some, Int.toNat_natCast,
    processLoadForSlot, processGet, if_neg hin, run_pure, hslot.free, hself, hput, hdata,
    if_neg hne, if_neg (lt_irrefl (0 : Int)), ne_eq, not_true_eq_false, if_false]

end Hyperion
