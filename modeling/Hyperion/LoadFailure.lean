import Hyperion.ProcessLoad
import Hyperion.TaskList

/-!
# What a failed load leaves behind

Nothing that `process_load_for_slot` has allocated is freed when it fails, apart from the task.
The structure of the process is allocated first, so a failed load leaves no trace exactly if it
did not get as far as that (`processLoadSwitch_traceless_iff`).

`Traceless` compares the table of the heap, the processes, the list of tasks and the open files.
`kzalloc` answers null for the structure exactly if there are not as many free blocks in a row and
the last block is in use (`Kernel.kzalloc_null_iff`) : while the last block is free the search
answers one that is too short. Whatever happens after the structure is allocated, it stays
allocated (`LoadFailed.owns`), already when the file is not there (`processLoadSwitch_missing`).
-/

namespace Hyperion

open Partial FreeRun

variable {k k' : Kernel} {b size : ℕ} {filename : List UInt8} {x : Int × ℕ}

/-- The tables, the current process, the task list and its links are the same. -/
structure Traceless (k k' : Kernel) : Prop where
  processes : k'.processes = k.processes
  currentProcess : k'.currentProcess = k.currentProcess
  taskHead : k'.taskHead = k.taskHead
  taskTail : k'.taskTail = k.taskTail
  currentTask : k'.currentTask = k.currentTask
  tasks : ∀ a, taskCell k' a = taskCell k a
  fileDescriptors : k'.fileDescriptors = k.fileDescriptors
  heapTable : k'.heapTable = k.heapTable

/-- There are not as many free blocks in a row as the request needs, and the last block is in
use. -/
def Kernel.Full (k : Kernel) (size : ℕ) : Prop :=
  ¬HasRun k.table.IsFree heapTotalBlocks (requestBlocks size) ∧
    ¬k.table.IsFree (heapTotalBlocks - 1)

/-- `kzalloc` answers null exactly if the heap is full. -/
theorem Kernel.kzalloc_null_iff (hpos : 0 < requestBlocks size) :
    kzalloc size k = some (0, k) ↔ k.Full size := by
  have hserved {b : ℕ} (he : kzalloc size k = if 4294967296 < blockAddr b + size then none
      else some (blockAddr b, k.allocated b size)) : kzalloc size k ≠ some (0, k) := by
    intro hz
    rw [he] at hz
    split_ifs at hz
    exact blockAddr_pos b (congrArg Prod.fst (Option.some.inj hz))
  rcases kzalloc_cases k size with ⟨b, -, -, hrun, he⟩ | ⟨b, hb, -, hlast, he⟩ | ⟨he, hno, hlast⟩
  · exact iff_of_false (hserved he) fun h => h.1 hrun.hasRun
  · exact iff_of_false (hserved he) fun h => h.2 (hlast.run _ (by omega) (by omega))
  · exact iff_of_true he ⟨hno hpos, hlast⟩

theorem Kernel.Answers.not_full (h : k.Answers size b) : ¬k.Full size := by
  rintro ⟨hno, hlast⟩
  have hlt := h.lt
  by_cases hin : b + requestBlocks size ≤ heapTotalBlocks
  · exact hno ⟨b, hin, fun i hi hi' => h.run i hi hi' (by omega)⟩
  · exact hlast (h.run _ (by omega) (by omega) (by omega))

/-- The structure of the process stays allocated. -/
theorem LoadFailed.owns (h : LoadFailed k b k') : k'.Owns (blockAddr b) 3 := by
  have hself := h.answers.owns (show 1 ≤ 9364 by decide)
  obtain ⟨p, ⟨hext, -⟩ | ⟨task, t, -, -, -, hext, -⟩⟩ := h.left
  · exact hext.owns hself
  · exact hext.owns (hself.of_table (by simp))

theorem LoadFailed.heapTable_ne (h : LoadFailed k b k') : k'.heapTable ≠ k.heapTable := by
  intro he
  have htable : k.table = k'.table := by simp [Kernel.table, Kernel.heap, he]
  exact (h.owns.of_table htable).not_fresh h.answers.fresh

/-- A load that fails leaves no trace exactly if every slot is in use or there is no memory for
the structure of the process. -/
theorem processLoadSwitch_traceless_iff (hg : Guarded k.table)
    (h : processLoadSwitch filename k = some (x, k')) (hneg : x.1 < 0) :
    Traceless k k' ↔ (∀ i < maxProcesses, k.processes i ≠ 0) ∨ k.Full 9364 := by
  rcases (processLoadSwitch_meets hg).of_eq h with ⟨-, rfl, hwhy⟩ | ⟨-, ⟨i, hi, hfree⟩, b, hb⟩ |
    ⟨k₁, slot, p, t, d, f, e, hres, -⟩
  · exact iff_of_true ⟨rfl, rfl, rfl, rfl, rfl, fun _ => rfl, rfl, rfl⟩
      (hwhy.imp_right (Kernel.kzalloc_null_iff (by decide)).mp)
  · refine iff_of_false (fun htr => hb.heapTable_ne htr.heapTable) ?_
    rintro (hall | hfull)
    · exact hall i hi hfree
    · exact hb.answers.not_full hfull
  · omega

/-- The state with a process in every slot. -/
def crowdedKernel : Kernel := { Kernel.empty with processes := fun _ => heapAddress }

/-- With every slot in use nothing is touched. -/
theorem processLoadSwitch_traceless_crowded : ∃ k',
    processLoadSwitch smallPath crowdedKernel = some ((-EISTKN, 0), k') ∧
      Traceless crowdedKernel k' := by
  have hg : Guarded crowdedKernel.table := ⟨-1, by decide, by decide, rfl⟩
  have hrun : processLoadSwitch smallPath crowdedKernel =
      some ((-EISTKN, 0), crowdedKernel) := rfl
  exact ⟨_, hrun, (processLoadSwitch_traceless_iff hg hrun (by decide)).mpr
    (.inl fun _ _ => show heapAddress ≠ 0 by decide)⟩

/-- A file that is not there. -/
def missingPath : List UInt8 := [48, 58, 47, 66]

/-- A load of a file that is not there keeps its first block. -/
theorem processLoadSwitch_missing : ∃ k x k',
    diskSearchAndInit (elfKernel 2 [120, 121]) = some ((), k) ∧
      processLoadSwitch missingPath k = some (x, k') ∧ x.1 < 0 ∧ ¬Traceless k k' := by
  have h : ((diskSearchAndInit (elfKernel 2 [120, 121])).map fun y =>
      (processLoadSwitch missingPath y.2).map fun z =>
        (z.1.1, y.2.heapTable 6, z.2.heapTable 6)) = some (some (- EIO, 0, 193)) := by
    decide +kernel
  obtain ⟨⟨_, k⟩, hmount, hx⟩ := Option.map_eq_some_iff.mp h
  obtain ⟨⟨x, k'⟩, hload, hx⟩ := Option.map_eq_some_iff.mp hx
  obtain ⟨hres, hbefore, hafter⟩ : x.1 = - EIO ∧ k.heapTable 6 = 0 ∧ k'.heapTable 6 = 193 := by
    simpa using hx
  refine ⟨k, x, k', hmount, hload, by rw [hres]; decide, fun htr => ?_⟩
  rw [htr.heapTable, hbefore] at hafter
  exact absurd hafter (by decide)

end Hyperion
