import Hyperion.PageMap
import Hyperion.ProcessData

/-!
# Mapping the memory of a process

`ProcessAt k process p t d f e` : the process `p`, its task `t` and the space of the task are
in `k`, with the entry `e n` for the page number `n`. `process_map_memory` changes the entries
only, and afterwards they are those of `Process.entries`.
-/

namespace Hyperion

open Partial

/-- At `process` is the process `p`, with the task `t`, whose space has the tables `f` under the
directory at `d` and the entries `e`. -/
structure ProcessAt (k : Kernel) (process : ℕ) (p : Process) (t : Task) (d : ℕ) (f e : ℕ → ℕ) :
    Prop where
  ne_zero : process ≠ 0
  task_ne : p.task ≠ 0
  self : k.store process = some (.process p)
  task : k.store p.task = some (.task t)
  maps : Maps k t.pageDirectory d f e

/-- The pointers to the structures of `ProcessAt`. -/
inductive ProcessPointer (process : ℕ) (p : Process) (t : Task) (d : ℕ) (f : ℕ → ℕ) : ℕ → Prop
  | self : ProcessPointer process p t d f process
  | task : ProcessPointer process p t d f p.task
  | chunk : ProcessPointer process p t d f t.pageDirectory
  | directory : ProcessPointer process p t d f d
  | table {i : ℕ} : i < 1024 → ProcessPointer process p t d f (entryAddress (f i))

section At

variable {k k' : Kernel} {process a b size : ℕ} {p p' : Process} {t : Task} {d : ℕ} {f e e' : ℕ → ℕ}

namespace ProcessAt

/-- A pointer leads to a structure. -/
theorem exists_obj (h : ProcessAt k process p t d f e) (ha : ProcessPointer process p t d f a) :
    a ≠ 0 ∧ ∃ o, k.store a = some o := by
  cases ha with
  | self => exact ⟨h.ne_zero, _, h.self⟩
  | task => exact ⟨h.task_ne, _, h.task⟩
  | chunk => exact ⟨h.maps.chunk_ne, _, h.maps.chunk⟩
  | directory => exact ⟨h.maps.directory_ne, _, h.maps.directory⟩
  | table hi =>
    obtain ⟨g, hg, -⟩ := h.maps.table _ hi
    exact ⟨h.maps.table_ne _ hi, _, hg⟩

theorem congr (h : ProcessAt k process p t d f e)
    (hs : ∀ a, ProcessPointer process p t d f a → k'.store a = k.store a) :
    ProcessAt k' process p t d f e where
  ne_zero := h.ne_zero
  task_ne := h.task_ne
  self := (hs _ .self).trans h.self
  task := (hs _ .task).trans h.task
  maps := ⟨h.maps.chunk_ne, h.maps.directory_ne, h.maps.table_ne, h.maps.inj,
    (hs _ .chunk).trans h.maps.chunk, (hs _ .directory).trans h.maps.directory, fun i hi => by
      rw [hs _ (.table hi)]
      exact h.maps.table i hi⟩

/-- Another content of the tables. -/
theorem tables (h : ProcessAt k process p t d f e) (ht : TablesOnly f k k')
    (hm : Maps k' t.pageDirectory d f e') : ProcessAt k' process p t d f e' := by
  have hother : ∀ a o, k.store a = some o → (∀ g, o ≠ .table g) → k'.store a = some o := by
    intro a o ha ho
    rw [ht.store a fun i hi he => ?_, ha]
    obtain ⟨g, hg, -⟩ := h.maps.table i hi
    rw [he, hg] at ha
    exact ho g (Option.some.inj ha).symm
  exact ⟨h.ne_zero, h.task_ne, hother _ _ h.self (by simp), hother _ _ h.task (by simp), hm⟩

/-- Another content of the process. -/
theorem put (h : ProcessAt k process p t d f e) (ht : p'.task = p.task) :
    ProcessAt (k.put process (.process p')) process p' t d f e := by
  have hother : ∀ a o, k.store a = some o → (∀ q, o ≠ .process q) →
      (k.put process (.process p')).store a = some o := by
    intro a o ha ho
    rw [Kernel.put_store, if_neg, ha]
    rintro rfl
    rw [h.self] at ha
    exact ho p (Option.some.inj ha).symm
  refine ⟨h.ne_zero, ht ▸ h.task_ne, k.put_store_self _ _, ?_, h.maps.chunk_ne,
    h.maps.directory_ne, h.maps.table_ne, h.maps.inj, ?_, ?_, fun i hi => ?_⟩
  · rw [ht]
    exact hother _ _ h.task (by simp)
  · exact hother _ _ h.maps.chunk (by simp)
  · exact hother _ _ h.maps.directory (by simp)
  · obtain ⟨g, hg, he⟩ := h.maps.table i hi
    exact ⟨g, hother _ _ hg (by simp), he⟩

/-- An allocation at a block that is free leaves what is not. -/
theorem allocated (h : ProcessAt k process p t d f e) (hb : k.Fresh (blockAddr b))
    (hf : ∀ a, ProcessPointer process p t d f a → ¬k.Fresh a) :
    ProcessAt (k.allocated b size) process p t d f e := by
  refine h.congr fun a ha => ?_
  rw [Kernel.allocated_store, if_neg]
  rintro ⟨rfl, -⟩
  exact hf _ ha hb

theorem release (h : ProcessAt k process p t d f e) (ha : ¬ProcessPointer process p t d f a) :
    ProcessAt (k.release a) process p t d f e := by
  refine h.congr fun q hq => ?_
  rw [Kernel.release_store, if_neg]
  rintro rfl
  exact ha hq

end ProcessAt

end At

/-! ## The entries -/

/-- The entries after `paging_map_to`, whose result is not looked at. -/
def tryMapTo (e : ℕ → ℕ) (virt phys physEnd flags : ℕ) : ℕ → ℕ :=
  if virt % 4096 = 0 ∧ phys % 4096 = 0 ∧ physEnd % 4096 = 0 ∧ phys ≤ physEnd then
    mapTo e virt phys physEnd flags
  else e

/-- What `process_map_elf` maps for the program header number `i`. -/
def elfSegment (file : ElfFile) (m : ℕ → UInt8) (i : ℕ) : ℕ × ℕ × ℕ × ℕ :=
  (elfMapping file (((elfPheader file.elfMemory).value m + phdrSize * i) % 4294967296)).value m

/-- The addresses of the segment `i` are valid. -/
def SegmentValid (file : ElfFile) (m : ℕ → UInt8) (i : ℕ) : Prop :=
  MapToValid (elfSegment file m i).1 (elfSegment file m i).2.1 (elfSegment file m i).2.2.1

/-- The entries after the segments `seg`, `fuel` of them from number `i` on, are mapped. -/
def mapSegments (seg : ℕ → ℕ × ℕ × ℕ × ℕ) : (fuel i : ℕ) → (ℕ → ℕ) → ℕ → ℕ
  | 0, _, e => e
  | fuel + 1, i, e =>
    mapSegments seg fuel (i + 1) (mapTo e (seg i).1 (seg i).2.1 (seg i).2.2.1 (seg i).2.2.2)

/-- The number of program headers. -/
def ElfFile.segments (file : ElfFile) (m : ℕ → UInt8) : ℕ := (ePhnum file.elfMemory).value m

/-- The entries of the image. -/
def Process.imageEntries (p : Process) (m : ℕ → UInt8) (e : ℕ → ℕ) : ℕ → ℕ :=
  match p.data with
  | .elfFile file => mapSegments (elfSegment file m) (file.segments m) 0 e
  | .ptr ptr => tryMapTo e programVirtualAddress ptr
      (pagingAlignAddress ((ptr + p.size) % 4294967296))
      (pagingIsPresent ||| pagingAccessFromAll ||| pagingIsWriteable)

/-- The entries of the image and the stack. -/
def Process.entries (p : Process) (m : ℕ → UInt8) (e : ℕ → ℕ) : ℕ → ℕ :=
  tryMapTo (p.imageEntries m e) programVirtualStackAddressEnd p.stack
    (pagingAlignAddress ((p.stack + userProgramStackSize) % 4294967296))
    (pagingIsPresent ||| pagingAccessFromAll ||| pagingIsWriteable)

/-- The data is that of the type of the process. -/
def Process.Typed (p : Process) : Prop :=
  match p.filetype, p.data with
  | .elf, .elfFile _ => True
  | .binary, .ptr _ => True
  | _, _ => False

/-- Every segment of the image is mapped. -/
def Process.Mappable (p : Process) (m : ℕ → UInt8) : Prop :=
  ∀ file, p.data = .elfFile file → ∀ i < file.segments m, SegmentValid file m i

section Meets

variable {k : Kernel} {process : ℕ} {p : Process} {t : Task} {d : ℕ} {f e : ℕ → ℕ} {r : Prop}

/-- `paging_map_to` on the space of a process. -/
theorem ProcessAt.mapTo_meets {virt phys physEnd flags : ℕ} (h : ProcessAt k process p t d f e)
    (hlt : virt < 4294967296) : Meets r (pagingMapTo t.pageDirectory virt phys physEnd flags) k
      fun res k' => TablesOnly f k k' ∧
        ((res = 0 ∧ MapToValid virt phys physEnd ∧
            ProcessAt k' process p t d f (mapTo e virt phys physEnd flags)) ∨
          (res < 0 ∧ ¬MapToValid virt phys physEnd ∧ ProcessAt k' process p t d f e)) := by
  refine (pagingMapTo_meets h.maps hlt).mono ?_
  rintro res k' (⟨hres, hv, hm, ht⟩ | ⟨hres, hv, rfl⟩)
  · exact ⟨ht, .inl ⟨hres, hv, h.tables ht hm⟩⟩
  · exact ⟨.refl, .inr ⟨hres, hv, h⟩⟩

/-- `paging_map_to` when the result is not looked at. -/
theorem ProcessAt.tryMapTo_meets {virt phys physEnd flags : ℕ}
    (h : ProcessAt k process p t d f e) (hlt : virt < 4294967296) :
    Meets r (pagingMapTo t.pageDirectory virt phys physEnd flags) k fun _ k' =>
      TablesOnly f k k' ∧ ProcessAt k' process p t d f (tryMapTo e virt phys physEnd flags) := by
  refine (h.mapTo_meets hlt).mono ?_
  rintro res k' ⟨ht, ⟨-, hv, h'⟩ | ⟨-, hv, h'⟩⟩
  · rw [tryMapTo, if_pos ⟨hv.virt_mod, hv.phys_mod, hv.end_mod, hv.le⟩]
    exact ⟨ht, h'⟩
  · rw [tryMapTo, if_neg fun hc => hv ⟨hc.1, hc.2.1, hc.2.2.1, hc.2.2.2⟩]
    exact ⟨ht, h'⟩

theorem word32_ensures (a : ℕ) : (Probe.word32 a).Ensures fun v => v < 4294967296 := by
  refine .bind .any fun b₀ _ => .bind .any fun b₁ _ => ?_
  refine .bind .any fun b₂ _ => .bind .any fun b₃ _ => ?_
  have h₀ := b₀.toNat_lt
  have h₁ := b₁.toNat_lt
  have h₂ := b₂.toNat_lt
  have h₃ := b₃.toNat_lt
  exact .pure (by omega)

theorem elfMapping_ensures (file : ElfFile) (phdr : ℕ) :
    (elfMapping file phdr).Ensures fun s => s.1 < 4294967296 := by
  refine .bind .any fun phys _ => .bind .any fun pflags _ =>
    .bind (word32_ensures _) fun vaddr hv => .bind .any fun memsz _ => .pure ?_
  have hle : pagingAlignToLowerPage vaddr ≤ vaddr := Nat.sub_le _ _
  exact hle.trans_lt hv

/-- The virtual page of a segment is in the address space. -/
theorem elfSegment_lt {file : ElfFile} {m : ℕ → UInt8} {i : ℕ} :
    (elfSegment file m i).1 < 4294967296 := by
  unfold elfSegment
  exact elfMapping_ensures file _ m

theorem processMapElfLoop_meets {file : ElfFile} {m : ℕ → UInt8} {phdrs : ℕ}
    (hphdrs : phdrs = (elfPheader file.elfMemory).value m) : ∀ (fuel i : ℕ) (k : Kernel)
    (e : ℕ → ℕ), k.mem = m → ProcessAt k process p t d f e →
    Meets r (processMapElfLoop process file phdrs fuel i) k fun res k' => TablesOnly f k k' ∧
      ((res = 0 ∧ (∀ j, i ≤ j → j < i + fuel → SegmentValid file m j) ∧
          ProcessAt k' process p t d f (mapSegments (elfSegment file m) fuel i e)) ∨
        (res < 0 ∧ (∃ j, i ≤ j ∧ j < i + fuel ∧ ¬SegmentValid file m j) ∧
          ∃ e', ProcessAt k' process p t d f e'))
  | 0, i, k, e, _, h => Meets.pure_iff.mpr ⟨.refl, .inl ⟨rfl, fun j hj hj' => by omega, h⟩⟩
  | fuel + 1, i, k, e, hm, h => by
    rw [processMapElfLoop, Meets.bind_iff, Meets.get_iff, Meets.bind_iff,
      Kernel.getProcess_meets h.ne_zero h.self, Meets.bind_iff,
        Kernel.getTask_meets h.task_ne h.task]
    have hseg : (elfMapping file ((phdrs + phdrSize * i) % 4294967296)).value k.mem =
        elfSegment file m i := by
      rw [elfSegment, ← hphdrs, hm]
    have hlt : (elfSegment file m i).1 < 4294967296 := elfSegment_lt
    rw [hseg]
    generalize hs : elfSegment file m i = s at hlt ⊢
    obtain ⟨virt, phys, physEnd, flags⟩ := s
    have hvalid : SegmentValid file m i ↔ MapToValid virt phys physEnd := by
      rw [SegmentValid, hs]
    have hentries : mapSegments (elfSegment file m) (fuel + 1) i e =
        mapSegments (elfSegment file m) fuel (i + 1) (mapTo e virt phys physEnd flags) := by
      rw [mapSegments, hs]
    rw [hentries]
    refine .bind (h.mapTo_meets hlt) ?_
    rintro res k₁ ⟨ht₁, ⟨rfl, hv, h₁⟩ | ⟨hneg, hv, h₁⟩⟩
    · rw [if_neg (lt_irrefl 0)]
      refine (processMapElfLoop_meets hphdrs fuel (i + 1) k₁ _ (ht₁.mem.trans hm) h₁).mono ?_
      rintro res k₂ ⟨ht₂, ⟨rfl, hall, h₂⟩ | ⟨hneg, ⟨j, hj, hj', hno⟩, h₂⟩⟩
      · refine ⟨ht₁.trans ht₂, .inl ⟨rfl, fun j hj hj' => ?_, h₂⟩⟩
        rcases Nat.eq_or_lt_of_le hj with rfl | hlt'
        · exact hvalid.mpr hv
        · exact hall j hlt' (by omega)
      · exact ⟨ht₁.trans ht₂, .inr ⟨hneg, ⟨j, by omega, by omega, hno⟩, h₂⟩⟩
    · rw [if_pos hneg]
      refine Meets.pure_iff.mpr ⟨ht₁, .inr ⟨hneg, ⟨i, le_rfl, by omega, fun hv' => ?_⟩, e, h₁⟩⟩
      exact hv (hvalid.mp hv')

theorem processMapElf_meets {file : ElfFile} (h : ProcessAt k process p t d f e)
    (hd : p.data = .elfFile file) : Meets r (processMapElf process) k fun res k' =>
      TablesOnly f k k' ∧
        ((res = 0 ∧ p.Mappable k.mem ∧ ProcessAt k' process p t d f (p.imageEntries k.mem e)) ∨
          (res < 0 ∧ ¬p.Mappable k.mem ∧ ∃ e', ProcessAt k' process p t d f e')) := by
  rw [processMapElf, Meets.bind_iff, Kernel.getProcess_meets h.ne_zero h.self, hd]
  simp only [Meets.bind_iff, Meets.get_iff]
  refine (processMapElfLoop_meets rfl _ 0 k e rfl h).mono ?_
  rintro res k' ⟨ht, ⟨hres, hall, h'⟩ | ⟨hneg, ⟨j, -, hj, hno⟩, h'⟩⟩
  · refine ⟨ht, .inl ⟨hres, fun file' hf i hi => ?_, ?_⟩⟩
    · rw [hd] at hf
      cases hf
      exact hall i (Nat.zero_le i) (by rwa [Nat.zero_add])
    · rw [Process.imageEntries, hd]
      exact h'
  · refine ⟨ht, .inr ⟨hneg, fun hall => hno (hall file hd j ?_), h'⟩⟩
    rwa [Nat.zero_add] at hj

theorem processMapBinary_meets {ptr : ℕ} (h : ProcessAt k process p t d f e)
    (hd : p.data = .ptr ptr) : Meets r (processMapBinary process) k fun res k' =>
      TablesOnly f k k' ∧ res = 0 ∧ ProcessAt k' process p t d f (p.imageEntries k.mem e) := by
  rw [processMapBinary, Meets.bind_iff, Kernel.getProcess_meets h.ne_zero h.self, Meets.bind_iff,
    Kernel.getTask_meets h.task_ne h.task, hd]
  refine .bind (h.tryMapTo_meets (by decide)) fun _ k' ⟨ht, h'⟩ => ?_
  refine Meets.pure_iff.mpr ⟨ht, rfl, ?_⟩
  rw [Process.imageEntries, hd]
  exact h'

/-- `process_map_memory` maps the image and the stack, or fails at a segment. -/
theorem processMapMemory_meets (h : ProcessAt k process p t d f e) (htyped : p.Typed) :
    Meets r (processMapMemory process) k fun res k' => TablesOnly f k k' ∧
      ((res = 0 ∧ p.Mappable k.mem ∧ ProcessAt k' process p t d f (p.entries k.mem e)) ∨
        (res < 0 ∧ ¬p.Mappable k.mem ∧ ∃ e', ProcessAt k' process p t d f e')) := by
  have hstack {m : KernelM Int} (hm : Meets r m k fun res k' => TablesOnly f k k' ∧
      ((res = 0 ∧ p.Mappable k.mem ∧ ProcessAt k' process p t d f (p.imageEntries k.mem e)) ∨
        (res < 0 ∧ ¬p.Mappable k.mem ∧ ∃ e', ProcessAt k' process p t d f e'))) :
      Meets r (do
        let res ← m
        if res < 0 then return res
        let task ← getTask p.task
        let _ ← pagingMapTo task.pageDirectory programVirtualStackAddressEnd p.stack
          (pagingAlignAddress ((p.stack + userProgramStackSize) % 4294967296))
          (pagingIsPresent ||| pagingAccessFromAll ||| pagingIsWriteable)
        return res) k fun res k' => TablesOnly f k k' ∧
          ((res = 0 ∧ p.Mappable k.mem ∧ ProcessAt k' process p t d f (p.entries k.mem e)) ∨
            (res < 0 ∧ ¬p.Mappable k.mem ∧ ∃ e', ProcessAt k' process p t d f e')) := by
    refine .bind hm ?_
    rintro res k₁ ⟨ht₁, ⟨rfl, hm, h₁⟩ | ⟨hneg, hm, h₁⟩⟩
    · rw [if_neg (lt_irrefl 0), Meets.bind_iff, Kernel.getTask_meets h₁.task_ne h₁.task]
      refine .bind (h₁.tryMapTo_meets (by decide)) fun _ k₂ ⟨ht₂, h₂⟩ => ?_
      exact Meets.pure_iff.mpr ⟨ht₁.trans ht₂, .inl ⟨rfl, hm, h₂⟩⟩
    · rw [if_pos hneg]
      exact Meets.pure_iff.mpr ⟨ht₁, .inr ⟨hneg, hm, h₁⟩⟩
  rw [processMapMemory, Meets.bind_iff, Kernel.getProcess_meets h.ne_zero h.self]
  unfold Process.Typed at htyped
  cases hft : p.filetype <;> cases hd : p.data <;> simp only [hft, hd] at htyped
  · exact hstack (processMapElf_meets h hd)
  · refine hstack ((processMapBinary_meets h hd).mono fun res k' ⟨ht, hres, h'⟩ => ?_)
    refine ⟨ht, .inl ⟨hres, fun file hfile => ?_, h'⟩⟩
    rw [hd] at hfile
    cases hfile

end Meets

end Hyperion
