import Hyperion.DescriptorTable
import Hyperion.FileCursor

/-!
# What an open file costs

`fopen` never frees what `pathparser_parse` allocated, whether it fails or succeeds, and
`fclose` does not know of it. So opening and closing gives the heap back exactly when the
path is refused before anything is allocated for it (`fopen_neutral_iff`).

`HeapNeutral` is the promise : a call of `fopen` that fails leaves the table of the heap and that of
the descriptors as they were, and one that succeeds does so together with the `fclose` of what it
returns, whatever is read or sought in between (`FileUse`). For any other path the block of its
structure is still taken in the end (`Leaves.close`), so that the two tables differ in it.
-/

namespace Hyperion

open Partial

/-- A call on an open file. -/
inductive FileUse
  | fread
  | fseek
  | fstat

inductive UseStep (fd : Int) : Kernel → FileUse → Kernel → Prop
  | fread {k k' : Kernel} {ptr size nmemb : ℕ} {res : Int} :
      Hyperion.fread ptr size nmemb fd k = some (res, k') → UseStep fd k .fread k'
  | fseek {k k' : Kernel} {offset : Int} {whence : FileSeekMode} {res : Int} :
      Hyperion.fseek fd offset whence k = some (res, k') → UseStep fd k .fseek k'
  | fstat {k k' : Kernel} {res : Int × FileStat} :
      Hyperion.fstat fd k = some (res, k') → UseStep fd k .fstat k'

/-- The heap block table and the descriptor table are the same. -/
structure SameTables (k k' : Kernel) : Prop where
  heapTable : k'.heapTable = k.heapTable
  fileDescriptors : k'.fileDescriptors = k.fileDescriptors

/-- `fopen` has taken `k` to `k'` and returned `fd`. If it has failed the tables are as they
were, and if not they are so once the file has been used and closed. -/
structure HeapNeutral (k : Kernel) (fd : Int) (k' : Kernel) : Prop where
  failed : fd = 0 → SameTables k k'
  closed : 0 < fd → ∀ tr u res v, Trace (UseStep fd) k' tr u → fclose fd u = some (res, v) →
    SameTables k v

section Open

variable {k k' : Kernel} {path modeStr : List UInt8} {fd : Int}

/-- A file that was opened can be closed, and what was left behind stays. -/
theorem Leaves.close {k₁ : Kernel} {p : ℕ} (h : Leaves k k₁ k' p) (hopen : OpensFirst k₁ fd k') :
    ∃ v, fclose fd k' = some (0, v) ∧ Leaves k k₁ v p := by
  obtain ⟨i, d, rfl, hi, hindex, hmade, hk'⟩ := hopen.slot
  have hslot : k'.fileDescriptors i = some d := by
    rw [Kernel.fileDescriptors_of_globals (k := k₁.withDescriptor i (some d)) hk']
    exact if_pos rfl
  have hclose := fclose_meets (r := True) hopen.heap hi.lt hslot hindex hmade
  obtain ⟨res, v, he, rfl, hv, -⟩ := hclose.exists_result
  exact ⟨v, he, h.trans hv⟩

/-- Opening and closing a file is heap-neutral exactly when its path is refused. -/
theorem fopen_neutral_iff (hg : Guarded k.table)
    (h : fopen path modeStr k = some (fd, k')) : HeapNeutral k fd k' ↔ PathRefused path := by
  rcases fopen_meets.of_eq h with ⟨href, rfl, rfl⟩ | ⟨hno, k₁, p, hleaves, hend⟩
  · refine iff_of_true ⟨fun _ => ⟨rfl, rfl⟩, fun hpos => ?_⟩ href
    exact absurd hpos (lt_irrefl 0)
  · refine iff_of_false (fun hneutral => ?_) hno
    rcases hend with ⟨rfl, -⟩ | hopen
    · exact hleaves.heapTable_ne hg (hneutral.failed rfl).heapTable
    · obtain ⟨i, d, rfl, -⟩ := hopen.slot
      obtain ⟨v, hv, hleaves'⟩ := hleaves.close hopen
      have hsame := hneutral.closed (by omega) [] _ _ _ (.nil _) hv
      exact hleaves'.heapTable_ne hg hsame.heapTable

/-- A path without a drive is refused. -/
theorem fopen_neutral_refused : HeapNeutral Kernel.empty 0 Kernel.empty := by
  have hg : Guarded Kernel.empty.table := ⟨-1, by decide, by decide, rfl⟩
  have hrun : fopen [65] [114] Kernel.empty = some (0, Kernel.empty) := rfl
  exact (fopen_neutral_iff hg hrun).mpr (.inr (by decide))

/-- Opening and closing the file `A` of the small volume takes blocks that stay taken. -/
theorem fopen_not_neutral : ∃ k fd k', diskSearchAndInit
      (smallKernel (fileEntry 65) [120, 121]) = some ((), k) ∧
    fopen smallPath [114] k = some (fd, k') ∧ Guarded k.table ∧ ¬HeapNeutral k fd k' := by
  have h : ((do
      diskSearchAndInit
      let k ← get
      let fd ← fopen smallPath [114]
      let res ← fclose fd
      let v ← get
      return (fd, res, decide (k.heapTable 4 ≠ v.heapTable 4 ∧ k.heapTable (-1) = 0)) :
      KernelM (Int × Int × Bool)) (smallKernel (fileEntry 65) [120, 121])).map Prod.fst =
        some (1, 0, true) := by
    decide +kernel
  obtain ⟨⟨x, v⟩, hrun, hx⟩ := Option.map_eq_some_iff.mp h
  obtain ⟨_, k, hmount, hrun⟩ := bind_eq_some.mp hrun
  obtain ⟨_, _, hget, hrun⟩ := bind_eq_some.mp hrun
  cases hget
  obtain ⟨fd, k', hopen, hrun⟩ := bind_eq_some.mp hrun
  obtain ⟨res, v', hclose, hrun⟩ := bind_eq_some.mp hrun
  cases hrun
  obtain ⟨rfl, hres⟩ := Prod.mk.inj hx
  obtain ⟨hne, hguard⟩ := of_decide_eq_true (Prod.mk.inj hres).2
  refine ⟨k, 1, k', hmount, hopen, ⟨-1, by decide, by decide, ?_⟩, fun hneutral => ?_⟩
  · show k.heapTable (-1) &&& blockHasNext = 0
    rw [hguard]
    rfl
  · have hsame := hneutral.closed (by decide) [] _ _ _ (.nil _) hclose
    exact hne (by rw [hsame.heapTable])

end Open

end Hyperion
