import Hyperion.ProcessData
import Hyperion.TaskNew

/-!
# Bytes in blocks that stay taken

The blocks that are taken when a task is created are still taken afterwards, and hold the bytes
that they held : `kzalloc` clears blocks that were free.
-/

namespace Hyperion

open Partial

namespace Kernel

/-- The byte at `a` is in a block that is taken. What a last, too short answer of the heap
reaches behind its end counts to the last block. -/
def Covered (k : Kernel) (a : ℕ) : Prop :=
  heapAddress ≤ a ∧ ¬k.table.IsFree (min ((a - heapAddress) / 4096) (heapTotalBlocks - 1) : ℕ)

/-- The block of an address in the blocks from `b` on. -/
theorem block_between {a b n : ℕ} (hb : b < heapTotalBlocks) (hlo : blockAddr b ≤ a)
    (hhi : a < blockAddr b + n * 4096) :
    b ≤ min ((a - heapAddress) / 4096) (heapTotalBlocks - 1) ∧
      min ((a - heapAddress) / 4096) (heapTotalBlocks - 1) < b + n := by
  unfold blockAddr heapAddress at *
  unfold heapTotalBlocks at *
  omega

/-- What is allocated was free. -/
theorem Answers.not_covered {k : Kernel} {b size j : ℕ} (h : k.Answers size b) (hj : j < size) :
    ¬k.Covered (blockAddr b + j) := by
  rintro ⟨-, hno⟩
  have hfit := h.fits
  have hle : size ≤ requestBlocks size * 4096 :=
    le_requestBlocks (by unfold blockAddr heapAddress at hfit; omega)
  have hin := block_between h.lt (Nat.le_add_right _ j)
    (by omega : blockAddr b + j < blockAddr b + requestBlocks size * 4096)
  exact hno (h.run _ hin.1 hin.2 (by unfold heapTotalBlocks; omega))

/-- The bytes of the blocks that are taken in `k` stay so, and are the same in `k'`. -/
structure KeepsBytes (k k' : Kernel) : Prop where
  covered : ∀ a, k.Covered a → k'.Covered a
  byte : ∀ a, k.Covered a → k'.mem a = k.mem a

namespace KeepsBytes

variable {k k' k₁ : Kernel}

theorem refl (k : Kernel) : k.KeepsBytes k := ⟨fun _ h => h, fun _ _ => rfl⟩

/-- Two steps that keep the bytes. -/
theorem trans (h : k.KeepsBytes k₁) (h' : k₁.KeepsBytes k') : k.KeepsBytes k' where
  covered a ha := h'.covered a (h.covered a ha)
  byte a ha := (h'.byte a (h.covered a ha)).trans (h.byte a ha)

/-- The heap and the memory decide. -/
theorem of_eq (ht : k'.heapTable = k.heapTable) (hm : k'.mem = k.mem) : k.KeepsBytes k' where
  covered a h := ⟨h.1, fun hf => h.2 ((congrFun ht _).symm.trans hf)⟩
  byte a _ := by rw [hm]

/-- `kzalloc` clears blocks that were free. -/
theorem allocated {b size : ℕ} (h : k.Answers size b) : k.KeepsBytes (k.allocated b size) where
  covered a ha := ⟨ha.1, fun hf => ha.2 (allocated_isFree.mp hf).1⟩
  byte a ha := by
    show (if _ then _ else _) = _
    rw [if_neg]
    rintro ⟨hlo, hhi⟩
    refine h.not_covered (show a - blockAddr b < size by omega) ?_
    rwa [Nat.add_sub_cancel' hlo]

/-- Bytes stored where nothing was taken. -/
theorem withBytes (h : k.KeepsBytes k₁) {a : ℕ} {bs : List UInt8}
    (hout : ∀ j < bs.length, ¬k.Covered (a + j)) : k.KeepsBytes (k₁.withBytes a bs) where
  covered := h.covered
  byte x hx := by
    have hno : ¬(a ≤ x ∧ x < a + bs.length) := by
      rintro ⟨hlo, hhi⟩
      refine hout (x - a) (by omega) ?_
      rwa [Nat.add_sub_cancel' hlo]
    exact (if_neg hno).trans (h.byte x hx)

end KeepsBytes

/-- No byte of a free block is covered. -/
theorem not_covered_of_isFree {k : Kernel} {b j : ℕ} (hb : b < heapTotalBlocks)
    (hf : k.table.IsFree b) (hj : j < 4096) : ¬k.Covered (blockAddr b + j) := by
  rintro ⟨-, hno⟩
  have hblock : min ((blockAddr b + j - heapAddress) / 4096) (heapTotalBlocks - 1) = b := by
    unfold blockAddr heapAddress
    omega
  rw [hblock] at hno
  exact hno hf

/-- The bytes of blocks that have an owner are covered. -/
theorem Owns.covered {k : Kernel} {p n j : ℕ} (h : k.Owns p n) (hj : j < n * 4096) :
    k.Covered (p + j) := by
  obtain ⟨b, rfl, hb⟩ := h
  refine ⟨by unfold blockAddr heapAddress; omega, fun hf => ?_⟩
  have hin := block_between hb.lt (by omega) (Nat.add_lt_add_left hj (blockAddr b))
  exact hb.not_isFree hin.1 hin.2 (by rw [table_total]; unfold heapTotalBlocks; omega) hf

end Kernel

/-- Every run of `m` keeps the bytes of the blocks that are taken. -/
abbrev KeepsBytes {α : Type} (m : KernelM α) : Prop := Stays Kernel.KeepsBytes m

namespace KeepsBytes

variable {α β : Type} {m : KernelM α} {a size flags directory process task : ℕ} {o : Obj}

theorem pure (x : α) : KeepsBytes (pure x : KernelM α) := Stays.pure .refl x

/-- A sequence keeps what both its parts keep. -/
theorem bind {f : α → KernelM β} (h : KeepsBytes m) (hf : ∀ x, KeepsBytes (f x)) :
    KeepsBytes (m >>= f) := Stays.bind .trans h hf

/-- An allocation. -/
theorem kzalloc : KeepsBytes (kzalloc size) := fun k _ _ e =>
  (Kernel.kzalloc_rule (Q := fun _ k' => k.KeepsBytes k') (.refl k)
    fun _ hb => .allocated hb).of_eq e

theorem get : KeepsBytes (get : KernelM Kernel) := fun k _ _ e => by
  cases e
  exact .refl k

/-- Structures are not kept as bytes. -/
theorem putObj : KeepsBytes (putObj a o) := fun k x k' e => by
  unfold Hyperion.putObj at e
  split_ifs at e
  cases e
  exact .of_eq rfl rfl

/-- To follow a pointer writes nothing. -/
theorem getObj : KeepsBytes (getObj a) := fun k x k' e => by
  unfold Hyperion.getObj at e
  split_ifs at e
  obtain ⟨o, -, he⟩ := Option.map_eq_some_iff.mp e
  cases he
  exact .refl k

theorem getTask : KeepsBytes (getTask a) := getObj.bind fun o => by
  cases o <;> first | exact KeepsBytes.pure _ | exact Stays.fault

theorem getProcess : KeepsBytes (getProcess a) := getObj.bind fun o => by
  cases o <;> first | exact KeepsBytes.pure _ | exact Stays.fault

theorem getDirectory : KeepsBytes (getDirectory a) := getObj.bind fun o => by
  cases o <;> first | exact KeepsBytes.pure _ | exact Stays.fault

/-- Neither does a change of a task. -/
theorem modifyTask {f : Task → Task} : KeepsBytes (modifyTask a f) := getTask.bind fun _ => putObj

/-- Or of a process. -/
theorem modifyProcess {f : Process → Process} : KeepsBytes (modifyProcess a f) :=
  getProcess.bind fun _ => putObj

/-- Or of an entry of a directory. -/
theorem setDirectoryEntry {i v : ℕ} : KeepsBytes (setDirectoryEntry a i v) :=
  getDirectory.bind fun _ => putObj

/-- The tables of a space are allocated one by one, by recursion on those that are left. -/
theorem pagingNew4gbLoop : ∀ fuel i offset : ℕ,
    KeepsBytes (pagingNew4gbLoop flags directory fuel i offset)
  | 0, _, _ => KeepsBytes.pure _
  | fuel + 1, i, _ => kzalloc.bind fun _ => putObj.bind fun _ => setDirectoryEntry.bind fun _ =>
    pagingNew4gbLoop fuel (i + 1) _

/-- A new space is made of blocks that were free. -/
theorem pagingNew4gb : KeepsBytes (pagingNew4gb flags) := by
  refine kzalloc.bind fun directory => ?_
  have hrest : KeepsBytes (do
      Hyperion.pagingNew4gbLoop flags directory 1024 0 0
      let chunk ← Hyperion.kzalloc 4
      Hyperion.putObj chunk (.chunk directory)
      return chunk) :=
    (pagingNew4gbLoop 1024 0 0).bind fun _ => kzalloc.bind fun _ => putObj.bind fun _ =>
      KeepsBytes.pure _
  show KeepsBytes (if _ then _ else _)
  exact Stays.ite (putObj.bind fun _ => hrest) hrest

/-- The entry point is read from the file. -/
theorem elfEntry {file : ElfFile} : KeepsBytes (elfEntry file) := by
  refine get.bind fun k => ?_
  show KeepsBytes (if _ then _ else _)
  exact Stays.ite (Stays.bind .trans Stays.fault fun _ => KeepsBytes.pure _) (KeepsBytes.pure _)

/-- A task is set up without writing to the bytes of others. -/
theorem taskInit : KeepsBytes (taskInit task process) := by
  refine putObj.bind fun _ => pagingNew4gb.bind fun _ => modifyTask.bind fun _ => ?_
  refine Stays.ite (KeepsBytes.pure _) (modifyTask.bind fun _ => getProcess.bind fun p => ?_)
  have hrest {f : Task → Task} : KeepsBytes (do
      Hyperion.modifyTask task f
      return (0 : Int)) := modifyTask.bind fun _ => KeepsBytes.pure _
  refine Stays.ite ?_ hrest
  cases p.data with
  | elfFile f => exact elfEntry.bind fun _ => modifyTask.bind fun _ => hrest
  | ptr a => exact Stays.bind .trans Stays.fault fun _ => hrest

end KeepsBytes

/-- `task_new` frees nothing when it has a result. -/
theorem taskNew_keepsBytes {k : Kernel} {process : ℕ} :
    Meets False (taskNew process) k fun _ k' => k.KeepsBytes k' := by
  simp only [taskNew, Meets.bind_iff, Meets.ite_iff, Meets.set_iff, Meets.get_iff,
    Meets.modify_iff, Meets.pure_iff]
  refine Kernel.kzalloc_rule ⟨fun _ => taskFree_null.mpr id, fun h => absurd rfl h⟩ fun b hb => ?_
  refine ⟨fun h => absurd h (blockAddr_pos b), fun _ => ?_⟩
  have hbuilt : Meets False (taskInit (blockAddr b) process) (k.allocated b 64) _ :=
    taskInit_built (c := 0) hb.ext hb.fresh (hb.owns (by decide)) False.elim
  refine (hbuilt.and_liberal (KeepsBytes.taskInit.meets _)).mono ?_
  rintro res k₂ ⟨⟨rfl, -⟩, hk₂⟩
  have hk : k.KeepsBytes k₂ := (Kernel.KeepsBytes.allocated hb).trans hk₂
  refine ⟨fun h => absurd rfl h, fun _ => ⟨fun _ => hk.trans (.of_eq rfl rfl), fun _ => ?_⟩⟩
  refine (KeepsBytes.modifyTask.meets _).mono fun _ k₃ hk₃ => ?_
  refine (KeepsBytes.modifyTask.meets _).mono fun _ k₄ hk₄ => ?_
  exact ((hk.trans hk₃).trans hk₄).trans (.of_eq rfl rfl)

end Hyperion
