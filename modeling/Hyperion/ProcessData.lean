import Hyperion.FileBlocks
import Hyperion.ElfCheck
import Hyperion.Process

/-!
# Loading the data of a process

What `process_load_data` does to the rest of the kernel. Whether it fails or not, what was
allocated before stays as it was and no file is left open (`Grows`). When it succeeds the file
lies in blocks that were free (`DataLoaded`).
-/

namespace Hyperion

open Partial

namespace Kernel

variable {k k' k₀ k₁ : Kernel} {size b p n : ℕ}

/-- An allocation only adds to the heap. -/
theorem Answers.grows (h : k.Answers size b) : k.Grows (k.allocated b size) :=
  ⟨fun _ => h.ext, rfl⟩

/-- What stays allocated stays owned. -/
theorem Kept.owns (h : k.Kept k') (hg : Guarded k.table) (ho : k.Owns p n) : k'.Owns p n :=
  (h hg).owns ho

end Kernel

variable {k k' k₁ k₂ : Kernel} {process self : ℕ} {p : Process} {fd : Int} {filename : List UInt8}

/-! ## `elf_load` -/

/-- `fread` of one item writes memory only, and reads nothing of size 0. -/
theorem fread_grows {ptr size : ℕ} : Meets False (fread ptr size 1 fd) k fun res k' =>
    k.Grows k' ∧ k'.heapTable = k.heapTable ∧ k'.store = k.store ∧ (0 ≤ res → 1 ≤ size) := by
  refine (fread_meets (by decide)).mono ?_
  rintro res _ ⟨⟨m, rfl⟩, hres⟩
  have hext : k.Extends { k with mem := m } := (Kernel.Extends.refl k).of_eq rfl rfl
  refine ⟨⟨fun _ => hext, rfl⟩, rfl, rfl, fun hpos => ?_⟩
  by_contra hzero
  exact absurd (hres.mpr (.inl (by omega))) (not_lt.mpr hpos)

/-- `b` points to a file of `n` bytes, in blocks that were free in `k`. -/
structure Buffer (k k' : Kernel) (b n : ℕ) : Prop where
  pos : 1 ≤ n
  fresh : k.Fresh b
  owns : k'.Owns b (requestBlocks n)
  store : k'.store b = none

/-- What `kzalloc` has just answered is a buffer. -/
theorem Kernel.Answers.buffer {b n : ℕ} (h : k.Answers n b) (hpos : 1 ≤ n) :
    Buffer k (k.allocated b n) (blockAddr b) n :=
  ⟨hpos, h.fresh, h.owns hpos, by rw [Kernel.allocated_store, if_pos ⟨rfl, by omega⟩]⟩

/-- The heap and the store decide. -/
theorem Buffer.of_eq {b n : ℕ} (h : Buffer k k₁ b n) (ht : k'.heapTable = k₁.heapTable)
    (hs : k'.store = k₁.store) : Buffer k k' b n := by
  have htable : k'.table = k₁.table := by simp [Kernel.table, Kernel.heap, ht]
  exact ⟨h.pos, h.fresh, h.owns.of_table htable, by rw [hs, h.store]⟩

/-- The file of an ELF program is read to a buffer. -/
theorem elfRead_grows : Meets False (elfRead self fd) k fun res k' => k.Grows k' ∧
    ∀ b n, res = .ok (b, n) → self ≠ 0 ∧ Buffer k k' b n := by
  refine .bind (Q := fun _ k' => k = k') (Meets.self.mono fun _ k' he => ?_) ?_
  · exact ((fstat_unchanged (v := id)) _ _ _ he).symm
  · rintro ⟨res, stat⟩ _ rfl
    simp only [Meets.ite_iff, Meets.bind_iff, Meets.pure_iff, Meets.fault_iff]
    refine ⟨fun _ => ⟨.refl k, by simp⟩, fun _ => ⟨fun _ => not_false, fun hself => ?_⟩⟩
    refine Kernel.kzalloc_rule ?_ fun b hb => ?_
    · refine fread_grows.mono fun res k₂ h => ⟨fun _ => ⟨h.1, by simp⟩, fun _ => ?_⟩
      exact ⟨fun _ => not_false, fun h => absurd rfl h⟩
    · refine fread_grows.mono fun res k₂ h => ?_
      obtain ⟨h₂, ht, hs, hpos⟩ := h
      refine ⟨fun _ => ⟨hb.grows.trans h₂, by simp⟩, fun hres => ⟨fun _ => not_false, fun _ => ?_⟩⟩
      refine ⟨hb.grows.trans h₂, fun b' n he => ?_⟩
      cases he
      exact ⟨hself, (hb.buffer (hpos (not_lt.mp hres))).of_eq ht hs⟩

section Headers

variable {file : ElfFile}

/-- The file is the same structure, with the same buffer. -/
def ElfFile.Same (file file' : ElfFile) : Prop :=
  file'.self = file.self ∧ file'.elfMemory = file.elfMemory

/-- Steps that keep the structure and the buffer of the file compose. -/
theorem ElfFile.Same.trans {file₁ file₂ : ElfFile} (h : file.Same file₁) (h' : file₁.Same file₂) :
    file.Same file₂ := ⟨h'.1.trans h.1, h'.2.trans h.2⟩

/-- A segment widens the bounds of the file only. -/
theorem elfProcessPhdrPtLoad_same {phdr : ℕ} :
    (elfProcessPhdrPtLoad file phdr).Ensures file.Same := by
  refine .bind .any fun vaddr _ => .bind (Q := file.Same) ?_ fun file₁ h₁ => ?_
  · exact .ite (.bind .any fun _ _ => .pure ⟨rfl, rfl⟩) (.pure ⟨rfl, rfl⟩)
  · refine .bind .any fun filesz _ => .ite (.bind .any fun _ _ => .pure ?_) (.pure h₁)
    exact h₁.trans ⟨rfl, rfl⟩

/-- So does a program header of any type. -/
theorem elfProcessPheader_same {phdr : ℕ} : (elfProcessPheader file phdr).Ensures file.Same :=
  .bind .any fun _ _ => .ite elfProcessPhdrPtLoad_same (.pure ⟨rfl, rfl⟩)

/-- So do all of them, by recursion on those that are left. -/
theorem elfProcessPheadersLoop_same {header : ℕ} : ∀ (fuel i : ℕ) (file : ElfFile),
    (elfProcessPheadersLoop header fuel i file).Ensures file.Same
  | 0, _, _ => .pure ⟨rfl, rfl⟩
  | fuel + 1, i, _ => .bind .any fun _ _ => .bind elfProcessPheader_same fun file₁ h₁ =>
    fun m => h₁.trans (elfProcessPheadersLoop_same fuel (i + 1) file₁ m)

/-- The check of the header answers a status that is never positive. -/
theorem elfValidateLoaded_nonpos {header : ℕ} :
    (elfValidateLoaded header).Ensures fun res => res ≤ 0 := fun m => by
  rcases elfValidateLoaded_value (m := m) (b := header) with ⟨-, hv⟩ | ⟨-, hv⟩
  · exact hv.le
  · exact hv.le.trans (by decide)

/-- The status is not positive, and the file stays where it is. -/
theorem elfProcessLoaded_same :
    (elfProcessLoaded file).Ensures fun r => r.1 ≤ 0 ∧ file.Same r.2 := by
  refine .bind elfValidateLoaded_nonpos fun res hres => .ite (.pure ⟨hres, rfl, rfl⟩) ?_
  refine .bind (.bind .any fun phnum _ => elfProcessPheadersLoop_same phnum 0 file) ?_
  exact fun file₁ h₁ => .pure ⟨le_rfl, h₁⟩

end Headers

/-- What `elf_load` leaves of a file that it accepts. -/
structure ElfLoaded.Blocks (k k' : Kernel) (file : ElfFile) (n : ℕ) : Prop where
  self : Buffer k k' file.self 132
  memory : Buffer k k' file.elfMemory n
  ne : file.self ≠ file.elfMemory

/-- An ELF file that is accepted is in a buffer of its own, behind its structure. -/
theorem elfLoadOpened_grows : Meets False (elfLoadOpened self fd) k fun r k' => k.Grows k' ∧
    r.res ≤ 0 ∧ ∀ file, r.file = some file → 0 ≤ r.res ∧ self ≠ 0 ∧ file.self = self ∧
      ∃ look, r.look = some look ∧ look.buffer = file.elfMemory ∧
        Buffer k k' file.elfMemory look.size := by
  refine .bind (elfRead_grows.and elfRead_meets) fun read k₁ ⟨⟨h₁, hread⟩, herr, _⟩ => ?_
  cases read with
  | error res => exact Meets.pure_iff.mpr ⟨h₁, (herr res rfl).le, by simp⟩
  | ok bn =>
    obtain ⟨b, n⟩ := bn
    obtain ⟨hself, hb⟩ := hread b n rfl
    simp only [Meets.bind_iff, Meets.get_iff, Meets.ite_iff, Meets.pure_iff]
    have hsame : (elfProcessLoaded ⟨self, b, 0, 0, 0, 0⟩).Ensures _ := elfProcessLoaded_same
    obtain ⟨hres, hs, hm⟩ := hsame k₁.mem
    refine ⟨fun _ => ⟨h₁, hres, by simp⟩, fun hpos => ⟨h₁, hres, fun file hfile => ?_⟩⟩
    obtain rfl := Option.some.inj hfile
    exact ⟨not_lt.mp hpos, hself, hs, _, rfl, hm.symm, hm ▸ hb⟩

/-- A buffer outlives the file it was read from. -/
theorem Buffer.close {k₀ : Kernel} {b n : ℕ} (h : Buffer k k₁ b n) (hk : k₀.Extends k)
    (hclose : ∀ q n, k₁.Owns q n → ¬k₀.Fresh q ∨ k.Fresh q →
      k'.Owns q n ∧ k'.store q = k₁.store q) :
    Buffer k₀ k' b n := by
  obtain ⟨ho, hs⟩ := hclose b _ h.owns (.inr h.fresh)
  exact ⟨h.pos, hk.fresh h.fresh, ho, hs.trans h.store⟩

/-- `elf_load` leaves no file open, and takes nothing from what was allocated before. -/
theorem elfLoad_grows (hg : Guarded k.table) : Meets False (elfLoad filename) k fun r k' =>
    k.Grows k' ∧ r.res ≤ 0 ∧ (0 ≤ r.res → ∀ file, r.file = some file →
      ∃ look, r.look = some look ∧ look.buffer = file.elfMemory ∧
        ElfLoaded.Blocks k k' file look.size) := by
  rw [elfLoad, Meets.bind_iff]
  have hopen {self : ℕ} {k₁ : Kernel} (h₁ : k.Grows k₁)
      (hself : self ≠ 0 → Buffer k k₁ self 132) : Meets False (do
        let fd ← fopen filename [114]
        if fd ≤ 0 then
          let _ ← fclose 0
          return ⟨- EIO, none, none⟩
        let loaded ← elfLoadOpened self fd
        let _ ← fclose fd
        return loaded) k₁ fun r k' => k.Grows k' ∧ r.res ≤ 0 ∧
          (0 ≤ r.res → ∀ file, r.file = some file → ∃ look, r.look = some look ∧
            look.buffer = file.elfMemory ∧ ElfLoaded.Blocks k k' file look.size) := by
    have hg₁ := h₁.guarded hg
    refine .bind (fopen_blocks hg₁) fun fd k₂ hfd => ?_
    have hfail {k₂ : Kernel} (h₂ : k.Grows k₂) : Meets False (do
        let _ ← fclose 0
        return (⟨- EIO, none, none⟩ : ElfLoaded)) k₂ fun r k' => k.Grows k' ∧ r.res ≤ 0 ∧
          (0 ≤ r.res → ∀ file, r.file = some file → ∃ look, r.look = some look ∧
            look.buffer = file.elfMemory ∧ ElfLoaded.Blocks k k' file look.size) := by
      refine Meets.bind_iff.mpr (.of_run_eq (a := - EIO) (t := k₂) rfl ?_)
      exact Meets.pure_iff.mpr ⟨h₂, by decide, fun _ => by simp⟩
    rcases hfd with ⟨rfl, h₂⟩ | ⟨d, hd⟩
    · exact Meets.ite_iff.mpr ⟨fun _ => hfail (h₁.trans h₂), fun h => absurd le_rfl h⟩
    · refine Meets.ite_iff.mpr ⟨fun h => absurd hd.pos (not_lt.mpr h), fun _ => ?_⟩
      refine .bind elfLoadOpened_grows fun r k₃ ⟨h₃, hres, hfile⟩ => ?_
      refine .bind (hd.close hg₁ h₃) fun _ k₄ ⟨h₄, hclose⟩ => ?_
      refine Meets.pure_iff.mpr ⟨h₁.trans h₄, hres, fun _ file he => ?_⟩
      obtain ⟨-, hself0, hs, look, hlook, hbuffer, hb⟩ := hfile file he
      have hbuf := hself hself0
      have hext₂ := hd.heap hg₁
      have hown₃ := (h₃.heap (hext₂.keeps.guarded hg₁)).owns (hext₂.owns hbuf.owns)
      obtain ⟨ho, hst⟩ := hclose _ _ hown₃ (.inl hbuf.owns.not_fresh)
      have hst₃ : k₃.store self = none := by
        rw [(h₃.heap (hext₂.keeps.guarded hg₁)).store_of_owns (hext₂.owns hbuf.owns),
          hext₂.store_of_owns hbuf.owns, hbuf.store]
      refine ⟨look, hlook, hbuffer, ?_, ?_, ?_⟩
      · rw [hs]
        exact ⟨by decide, hbuf.fresh, ho, hst.trans hst₃⟩
      · have hmem := hb.close hext₂ hclose
        exact { hmem with fresh := (h₁.heap hg).fresh hmem.fresh }
      · rw [hs]
        exact fun he => hbuf.owns.not_fresh (he ▸ hext₂.fresh hb.fresh)
  refine Kernel.kzalloc_rule (hopen (.refl k) fun h => absurd rfl h) fun b hb => ?_
  exact hopen hb.grows fun _ => hb.buffer (by decide)

/-! ## `process_load_data` -/

/-- The data of a process lies in blocks that were free in `k`. -/
inductive Process.DataBlocks (k k' : Kernel) (p : Process) : Prop
  | binary {a : ℕ} : p.filetype = .binary → p.data = .ptr a → Buffer k k' a p.size →
      DataBlocks k k' p
  | elf {file : ElfFile} {n : ℕ} : p.filetype = .elf → p.data = .elfFile file →
      ElfLoaded.Blocks k k' file n → DataBlocks k k' p

/-- `k'` is `k` with the data of the process `p` loaded, which is `p'` then. -/
structure DataLoaded (k k' : Kernel) (process : ℕ) (p p' : Process) : Prop where
  ext : (k.put process (.process p')).Extends k'
  globals : k'.globals = k.globals
  same : ∃ filetype data size, p' = { p with filetype := filetype, data := data, size := size }
  data : p'.DataBlocks k k'

/-- The same structure stored before and after. -/
theorem Kernel.Extends.put_both {k₀ : Kernel} (h : k₀.Extends k) (a : ℕ) (o : Obj) :
    (k₀.put a o).Extends (k.put a o) where
  keeps := h.keeps
  store b hb hf := by
    rw [put_store, put_store]
    split_ifs
    · rfl
    · exact h.store b hb hf

/-- A buffer beside a structure that is stored. -/
theorem Buffer.put {b n a : ℕ} (h : Buffer k k₁ b n) (ho : ¬k.Fresh a) (o : Obj) :
    Buffer k (k₁.put a o) b n := by
  have hne : b ≠ a := fun he => ho (he ▸ h.fresh)
  exact ⟨h.pos, h.fresh, h.owns, by rw [Kernel.put_store, if_neg hne, h.store]⟩

/-- The data of a process outlives the file it was read from. -/
theorem Process.DataBlocks.close {k₀ : Kernel} (h : p.DataBlocks k k₁) (hk : k₀.Extends k)
    (hclose : ∀ q n, k₁.Owns q n → ¬k₀.Fresh q ∨ k.Fresh q →
      k'.Owns q n ∧ k'.store q = k₁.store q) :
    p.DataBlocks k₀ k' := by
  cases h with
  | binary ht hd hb => exact .binary ht hd (hb.close hk hclose)
  | elf ht hd hb =>
    exact .elf ht hd ⟨hb.self.close hk hclose, hb.memory.close hk hclose, hb.ne⟩

/-- The blocks of an open file beside a structure that is stored. -/
theorem OpensBlocks.put {k₀ : Kernel} {d : FileDescriptor} (h : OpensBlocks k₀ fd d k) (a : ℕ)
    (o : Obj) : OpensBlocks (k₀.put a o) fd d (k.put a o) where
  heap hg := (h.heap hg).put_both a o
  pos := h.pos
  lookup := by
    have hd := h.lookup
    rw [fileGetDescriptor_eq] at hd ⊢
    exact congrArg (fun o => some (o, _)) (congrArg Prod.fst (Option.some.inj hd))
  index := h.index
  globals := h.globals
  empty := h.empty
  blocks := by
    refine ⟨h.blocks.self, h.blocks.privateSelf, h.blocks.item.self, ?_, h.blocks.item.type⟩
    exact h.blocks.item.union.imp fun _ hp => hp

/-- `fstat` answers a status that is never positive. -/
theorem fstat_nonpos : Meets False (fstat fd) k fun r _ => r.1 ≤ 0 := by
  refine .bind .self fun desc k₁ _ => ?_
  cases desc with
  | none => exact Meets.pure_iff.mpr (by decide)
  | some d =>
    refine Meets.ite_iff.mpr ⟨fun _ => Meets.pure_iff.mpr (by decide), fun _ => ?_⟩
    exact .bind .self fun _ _ _ => Meets.pure_iff.mpr le_rfl

/-- The process with an ELF file that was loaded. -/
theorem ElfLoaded.Blocks.loaded {file : ElfFile} {n : ℕ} (hb : ElfLoaded.Blocks k k₁ file n)
    (h₁ : k.Grows k₁) (hg : Guarded k.table) (hf : ¬k.Fresh process) (p : Process) :
    DataLoaded k (k₁.put process (.process { p with filetype := .elf, data := .elfFile file }))
      process p { p with filetype := .elf, data := .elfFile file } where
  ext := (h₁.heap hg).put_both _ _
  globals := h₁.globals
  same := ⟨.elf, .elfFile file, p.size, rfl⟩
  data := .elf rfl rfl ⟨hb.self.put hf _, hb.memory.put hf _, hb.ne⟩

section Load

variable (hg : Guarded k.table) (hf : ¬k.Fresh process) (hp0 : process ≠ 0)
  (hp : k.store process = some (.process p))

include hg hf hp0 hp

/-- An ELF program is loaded, or the heap has grown and nothing else is different. -/
theorem processLoadElf_meets : Meets False (processLoadElf filename process) k fun res k' =>
    (res < 0 ∧ k.Grows k') ∨ (res = 0 ∧ ∃ p', DataLoaded k k' process p p') := by
  refine .bind (elfLoad_grows hg) fun r k₁ ⟨h₁, hres, hfile⟩ => ?_
  refine Meets.ite_iff.mpr ⟨fun hneg => Meets.pure_iff.mpr (.inl ⟨hneg, h₁⟩), fun hpos => ?_⟩
  refine Meets.bind_iff.mpr (defined_iff.mpr ⟨fun file he => ?_, fun _ => not_false⟩)
  have hext := h₁.heap hg
  have hp₁ : k₁.store process = some (.process p) := (hext.store _ hp0 hf).trans hp
  rw [Meets.bind_iff, Kernel.modifyProcess_meets hp0 hp₁, Meets.pure_iff]
  obtain ⟨look, -, -, hb⟩ := hfile (not_lt.mp hpos) file he
  exact .inr ⟨le_antisymm hres (not_lt.mp hpos), _, hb.loaded h₁ hg hf p⟩

/-- So is a flat program with its file open. -/
theorem processLoadBinaryOpened_meets : Meets False (processLoadBinaryOpened process fd) k
    fun res k' => (res < 0 ∧ k.Grows k') ∨ (res = 0 ∧ ∃ p', DataLoaded k k' process p p') := by
  refine .bind (Q := fun r k' => k = k' ∧ r.1 ≤ 0) ?_ ?_
  · refine (Meets.self.and fstat_nonpos).mono fun r k' h => ⟨?_, h.2⟩
    exact ((fstat_unchanged (v := id)) _ _ _ h.1).symm
  · rintro ⟨res, stat⟩ _ ⟨rfl, hres⟩
    simp only [Meets.ite_iff, Meets.bind_iff, Meets.pure_iff]
    refine ⟨fun hne => .inl ⟨lt_of_le_of_ne hres hne, .refl k⟩, fun _ => ?_⟩
    refine Kernel.kzalloc_rule ?_ fun b hb => ?_
    · exact ⟨fun _ => .inl ⟨by decide, .refl k⟩, fun h => absurd rfl h⟩
    · refine ⟨fun h => absurd h (blockAddr_pos b), fun _ => ?_⟩
      refine fread_grows.mono fun n k₂ h => ?_
      obtain ⟨h₂, ht, hs, hpos⟩ := h
      refine ⟨fun _ => .inl ⟨by decide, hb.grows.trans h₂⟩, fun hn => ?_⟩
      have hext := (hb.grows.trans h₂).heap hg
      have hp₂ : k₂.store process = some (.process p) := (hext.store _ hp0 hf).trans hp
      rw [Kernel.modifyProcess_meets hp0 hp₂]
      refine .inr ⟨trivial, _, hext.put_both _ _, h₂.globals,
        ⟨.binary, .ptr (blockAddr b), stat.filesize, rfl⟩, .binary rfl rfl ?_⟩
      exact ((hb.buffer (hpos (by omega))).of_eq ht hs).put hf _

/-- And with the file opened and closed around it. -/
theorem processLoadBinary_meets : Meets False (processLoadBinary filename process) k fun res k' =>
    (res < 0 ∧ k.Grows k') ∨ (res = 0 ∧ ∃ p', DataLoaded k k' process p p') := by
  refine .bind (fopen_blocks hg) fun fd k₁ hfd => ?_
  rcases hfd with ⟨rfl, h₁⟩ | ⟨d, hd⟩
  · refine Meets.ite_iff.mpr ⟨fun _ => ?_, fun h => absurd rfl h⟩
    refine Meets.bind_iff.mpr (.of_run_eq (a := - EIO) (t := k₁) rfl ?_)
    exact Meets.pure_iff.mpr (.inl ⟨by decide, h₁⟩)
  · have hext := hd.heap hg
    have hp₁ : k₁.store process = some (.process p) := (hext.store _ hp0 hf).trans hp
    refine Meets.ite_iff.mpr ⟨fun h => absurd hd.pos (by omega), fun _ => ?_⟩
    refine .bind (processLoadBinaryOpened_meets (hext.keeps.guarded hg)
      (fun h => hf (hext.fresh h)) hp0 hp₁) ?_
    rintro res k₂ (⟨hneg, h₂⟩ | ⟨rfl, p', h₂⟩)
    · exact .bind (hd.close hg h₂) fun _ k₃ ⟨h₃, _⟩ => Meets.pure_iff.mpr (.inl ⟨hneg, h₃⟩)
    · have hg' : Guarded (k.put process (.process p')).table := hg
      refine .bind ((hd.put process (.process p')).close hg' ⟨fun _ => h₂.ext, h₂.globals⟩) ?_
      rintro _ k₃ ⟨h₃, hclose⟩
      refine Meets.pure_iff.mpr (.inr ⟨rfl, p', h₃.heap hg, h₃.globals, h₂.same, ?_⟩)
      exact h₂.data.close hext hclose

/-- The data of a program of either kind is loaded, or what was allocated for it is left behind. -/
theorem processLoadData_meets : Meets False (processLoadData filename process) k fun res k' =>
    (res < 0 ∧ k.Grows k') ∨ (res = 0 ∧ ∃ p', DataLoaded k k' process p p') := by
  refine .bind (processLoadElf_meets hg hf hp0 hp) fun res k₁ h₁ => ?_
  refine Meets.ite_iff.mpr ⟨fun he => ?_, fun _ => Meets.pure_iff.mpr h₁⟩
  rcases h₁ with ⟨-, h₁⟩ | ⟨hz, -⟩
  · have hext := h₁.heap hg
    refine (processLoadBinary_meets (h₁.guarded hg) (fun h => hf (hext.fresh h)) hp0
      ((hext.store _ hp0 hf).trans hp)).mono ?_
    rintro res k₂ (⟨hneg, h₂⟩ | ⟨rfl, p', h₂⟩)
    · exact .inl ⟨hneg, h₁.trans h₂⟩
    · refine .inr ⟨rfl, p', (hext.put_both _ _).trans h₂.ext, h₂.globals.trans h₁.globals,
        h₂.same, ?_⟩
      exact h₂.data.close hext fun _ _ ho _ => ⟨ho, rfl⟩
  · rw [hz] at he
    cases he

end Load

end Hyperion
