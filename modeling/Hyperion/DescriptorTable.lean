import Hyperion.FileFrame
import Hyperion.Lib.Trace

/-!
# The descriptor table

A file descriptor is one more than its slot in `file_descriptors`. Over any run of `fopen`
and `fclose` the non-empty slots are those of the descriptors that are open
(`descriptor_table_run`), so the first empty slot is the smallest number not in use
(`SmallestNotOpen`).

`FdTable` is the table as it should be for the descriptors that are open : each has its slot, and
the other slots are empty. It depends on nothing else in the kernel (`FdTable.congr`). A file that
is opened is added (`FdTable.fopen_meets`), an open descriptor that is closed is removed
(`FdTable.fclose_open`), and any other integer is refused with nothing changed
(`FdTable.fclose_not_open`). The events of a run (`FdEvent`) also have everything that leaves the
table alone, and `openFds` reads the open descriptors off the run.
-/

namespace Hyperion

open Partial

/-- What happens to the descriptor table. -/
inductive FdEvent
  | fopen (res : Int)
  | fclose (fd : Int)
  | other

/-- A file is opened, any number is closed, or something happens that leaves the table alone. -/
inductive FdStep : Kernel → FdEvent → Kernel → Prop
  | fopen {k k' : Kernel} {filename modeStr : List UInt8} {res : Int} :
      fopen filename modeStr k = some (res, k') → FdStep k (.fopen res) k'
  | fclose {k k' : Kernel} {fd res : Int} :
      fclose fd k = some (res, k') → FdStep k (.fclose fd) k'
  | other {k k' : Kernel} : k'.fileDescriptors = k.fileDescriptors → FdStep k .other k'

abbrev FdRun := List (Kernel × FdEvent × Kernel)

/-- The descriptors open after an event. -/
def FdEvent.after (fds : List Int) : FdEvent → List Int
  | .fopen res => if res = 0 then fds else fds ++ [res]
  | .fclose fd => fds.erase fd
  | .other => fds

/-- The descriptors returned and not yet closed. -/
def openFds (tr : FdRun) : List Int := tr.foldl (fun fds x => x.2.1.after fds) []

/-- The number is the smallest one that is not open. -/
structure SmallestNotOpen (fds : List Int) (fd : Int) : Prop where
  pos : 1 ≤ fd
  not_open : fd ∉ fds
  least : ∀ j, 1 ≤ j → j < fd → j ∈ fds

/-- The table holds the descriptors `fds`, each in its slot. -/
structure FdTable (fds : List Int) (k : Kernel) : Prop where
  index : ∀ i d, k.fileDescriptors i = some d → d.index = i + 1
  nodup : fds.Nodup
  range : ∀ fd ∈ fds, 1 ≤ fd ∧ fd ≤ maxFileDescriptors
  slot : ∀ i : ℕ, (i : Int) + 1 ∈ fds ↔ k.fileDescriptors i ≠ none

/-- Every open file is a regular one, which is all that the lookup makes. -/
def AllFiles (k : Kernel) : Prop :=
  ∀ i d, k.fileDescriptors i = some d → d.privateData.item.type = .file

section Calls

variable {k k' : Kernel} {fds : List Int} {fd res : Int}

/-- Relative to a table that is not guarded, that the item is a file is all there is. -/
theorem FileDescriptor.made_of_file {d : FileDescriptor} (h : d.privateData.item.type = .file) :
    ∃ k₀ : Kernel, ¬Guarded k₀.table ∧ d.Made k₀ := by
  have hno : ¬Guarded (Kernel.table { Kernel.empty with heapTable := fun _ => 0xFF }) := by
    rintro ⟨g, -, -, hg⟩
    have hbyte : (0xFF : UInt8) &&& blockHasNext = 0 := hg
    exact absurd hbyte (by decide)
  have hany (p : ℕ) : Kernel.Unowned { Kernel.empty with heapTable := fun _ => 0xFF } p :=
    fun hg => absurd hg hno
  refine ⟨_, hno, hany _, hany _, hany _, ?_, h⟩
  cases d.privateData.item.union with
  | null => trivial
  | item p bytes => exact hany p
  | directory p dir => exact ⟨hany _, hany _⟩

/-- The slot of an open descriptor. -/
theorem FdTable.exists_slot (h : FdTable fds k) (hfd : fd ∈ fds) :
    ∃ (i : ℕ) (d : FileDescriptor), fd = i + 1 ∧ i < maxFileDescriptors ∧
      k.fileDescriptors i = some d ∧ d.index = i + 1 := by
  obtain ⟨hlo, hhi⟩ := h.range fd hfd
  obtain ⟨i, rfl⟩ : ∃ i : ℕ, fd = i + 1 := ⟨(fd - 1).toNat, by omega⟩
  obtain ⟨d, hd⟩ := Option.ne_none_iff_exists'.mp ((h.slot i).mp hfd)
  exact ⟨i, d, rfl, by omega, hd, h.index i d hd⟩

/-- The table decides. -/
theorem FdTable.congr (h : FdTable fds k) (hk : k'.fileDescriptors = k.fileDescriptors) :
    FdTable fds k' where
  index := hk ▸ h.index
  nodup := h.nodup
  range := h.range
  slot := hk ▸ h.slot

theorem FdTable.add {i : ℕ} {d : FileDescriptor} (h : FdTable fds k) (hi : i < maxFileDescriptors)
    (hempty : k.fileDescriptors i = none) (hindex : d.index = i + 1)
    (hk : k'.fileDescriptors = fun j => if j = i then some d else k.fileDescriptors j) :
    FdTable (fds ++ [(i : Int) + 1]) k' where
  index j e hj := by
    rw [hk] at hj
    simp only at hj
    split_ifs at hj with hji
    · obtain rfl := Option.some.inj hj
      rw [hindex, hji]
    · exact h.index j e hj
  nodup := by
    refine List.nodup_append.mpr ⟨h.nodup, List.nodup_singleton _, fun a ha b hb hab => ?_⟩
    rw [hab, List.mem_singleton.mp hb] at ha
    exact (h.slot i).mp ha hempty
  range fd hfd := by
    rcases List.mem_append.mp hfd with hfd | hfd
    · exact h.range fd hfd
    · rw [List.mem_singleton.mp hfd]
      omega
  slot j := by
    rw [hk, List.mem_append, List.mem_singleton, h.slot j]
    by_cases hji : j = i
    · simp [hji]
    · have : ¬(j : Int) + 1 = i + 1 := by omega
      simp [hji, this]

theorem FdTable.remove {i : ℕ} (h : FdTable fds k)
    (hk : k'.fileDescriptors = fun j => if j = i then none else k.fileDescriptors j) :
    FdTable (fds.erase ((i : Int) + 1)) k' where
  index j e hj := by
    rw [hk] at hj
    simp only at hj
    split_ifs at hj
    exact h.index j e hj
  nodup := h.nodup.erase _
  range fd hfd := h.range fd (List.mem_of_mem_erase hfd)
  slot j := by
    rw [hk, h.nodup.mem_erase_iff, h.slot j]
    by_cases hji : j = i
    · simp [hji]
    · have : (j : Int) + 1 ≠ i + 1 := by omega
      simp [hji, this]

/-- The first empty slot is the smallest number not open. -/
theorem FdTable.smallest {i : ℕ} (h : FdTable fds k) (hi : FirstEmpty k i) :
    SmallestNotOpen fds ((i : Int) + 1) where
  pos := by omega
  not_open hmem := (h.slot i).mp hmem hi.empty
  least j hlo hhi := by
    obtain ⟨l, rfl⟩ : ∃ l : ℕ, j = l + 1 := ⟨(j - 1).toNat, by omega⟩
    exact (h.slot l).mpr (hi.first l (by omega))

/-- A file that is opened gets the smallest number not open. -/
theorem FdTable.fopen_meets {filename modeStr : List UInt8} (h : FdTable fds k)
    (hfiles : AllFiles k) :
    Meets False (fopen filename modeStr) k fun res k' =>
      FdTable ((FdEvent.fopen res).after fds) k' ∧ AllFiles k' ∧
        (res ≠ 0 → SmallestNotOpen fds res) := by
  refine Hyperion.fopen_meets.mono ?_
  have hfail {k' : Kernel} (hk' : k'.fileDescriptors = k.fileDescriptors) :
      FdTable ((FdEvent.fopen 0).after fds) k' ∧ AllFiles k' ∧
        ((0 : Int) ≠ 0 → SmallestNotOpen fds 0) :=
    ⟨h.congr hk', by unfold AllFiles; rwa [hk'], fun h0 => absurd rfl h0⟩
  rintro res k' (⟨-, rfl, rfl⟩ | ⟨-, k₁, p, hleaves, ⟨rfl, hk'⟩ | hopen⟩)
  · exact hfail rfl
  · exact hfail (Kernel.fileDescriptors_of_globals (hk'.globals.trans hleaves.globals))
  · have hk₁ := Kernel.fileDescriptors_of_globals hleaves.globals
    obtain ⟨i, d, rfl, hi, hindex, hmade, hk'⟩ := hopen.slot
    have hk' : k'.fileDescriptors = fun j => if j = i then some d else k.fileDescriptors j := by
      rw [← hk₁]
      exact Kernel.fileDescriptors_of_globals (k := k₁.withDescriptor i (some d)) hk'
    have hempty : FirstEmpty k i := ⟨hi.lt, hk₁ ▸ hi.empty, hk₁ ▸ hi.first⟩
    have hpos : (i : Int) + 1 ≠ 0 := by omega
    refine ⟨?_, fun j e hj => ?_, fun _ => h.smallest hempty⟩
    · rw [FdEvent.after, if_neg hpos]
      exact h.add hi.lt hempty.empty hindex hk'
    · rw [hk'] at hj
      simp only at hj
      split_ifs at hj
      · obtain rfl := Option.some.inj hj
        exact hmade.privateData.item.type
      · exact hfiles j e hj

/-- Closing an open descriptor succeeds and empties its slot. -/
theorem FdTable.fclose_open (h : FdTable fds k) (hfiles : AllFiles k) (hfd : fd ∈ fds) :
    Meets True (fclose fd) k fun res k' =>
      res = 0 ∧ k'.fileDescriptors =
        fun j => if j = (fd - 1).toNat then none else k.fileDescriptors j := by
  obtain ⟨i, d, rfl, hi, hd, hindex⟩ := h.exists_slot hfd
  obtain ⟨k₀, hno, hmade⟩ := FileDescriptor.made_of_file (hfiles i d hd)
  have hkept : k₀.Kept k := fun hg => absurd hg hno
  refine (fclose_meets hkept hi hd hindex hmade).mono fun res k' ⟨hres, _, hk'⟩ => ⟨hres, ?_⟩
  have hslot : ((i : Int) + 1 - 1).toNat = i := by omega
  rw [hslot]
  exact Kernel.fileDescriptors_of_globals (k := k.withDescriptor i none) hk'

/-- Closing any other number fails and changes nothing. -/
theorem FdTable.fclose_not_open (h : FdTable fds k) (hfd : fd ∉ fds) :
    fclose fd k = some (- EIO, k) := by
  refine fclose_of_not_open fun i _ he => ?_
  by_contra hne
  exact hfd (he ▸ (h.slot i).mpr hne)

theorem FdTable.step {e : FdEvent} (h : FdTable fds k) (hfiles : AllFiles k)
    (hs : FdStep k e k') : FdTable (e.after fds) k' ∧ AllFiles k' := by
  cases hs with
  | fopen he =>
    obtain ⟨ht, hf, -⟩ := (h.fopen_meets hfiles).of_eq he
    exact ⟨ht, hf⟩
  | fclose he =>
    rename_i fd res
    by_cases hfd : fd ∈ fds
    · obtain ⟨-, hk'⟩ := (h.fclose_open hfiles hfd).of_eq he
      obtain ⟨i, -, rfl, -⟩ := h.exists_slot hfd
      have hslot : ((i : Int) + 1 - 1).toNat = i := by omega
      rw [hslot] at hk'
      refine ⟨h.remove hk', fun j e hj => ?_⟩
      rw [hk'] at hj
      simp only at hj
      split_ifs at hj
      exact hfiles j e hj
    · rw [h.fclose_not_open hfd] at he
      cases he
      rw [FdEvent.after, List.erase_of_not_mem hfd]
      exact ⟨h, hfiles⟩
  | other hsame => exact ⟨h.congr hsame, by unfold AllFiles; rwa [hsame]⟩

theorem openFds_concat (tr : FdRun) (k : Kernel) (e : FdEvent) (k' : Kernel) :
    openFds (tr ++ [(k, e, k')]) = e.after (openFds tr) := by
  simp [openFds]

end Calls

/-- The descriptor table over a run that starts with no file open : after it the non-empty
slots are those of the open descriptors, `fopen` returns the smallest number not open, and
`fclose` empties the slot of an open descriptor and refuses every other number. -/
theorem descriptor_table_run {k u : Kernel} {tr : FdRun} (h0 : ∀ i, k.fileDescriptors i = none)
    (h : Trace FdStep k tr u) :
    FdTable (openFds tr) u ∧
      (∀ filename modeStr res v, fopen filename modeStr u = some (res, v) → res ≠ 0 →
        SmallestNotOpen (openFds tr) res) ∧
      (∀ fd ∈ openFds tr, ∃ v, fclose fd u = some (0, v) ∧
        v.fileDescriptors = fun j => if j = (fd - 1).toNat then none else u.fileDescriptors j) ∧
      ∀ fd, fd ∉ openFds tr → fclose fd u = some (- EIO, u) := by
  have hinv := (h.history (I := fun tr k => FdTable (openFds tr) k ∧ AllFiles k) [] ?_ ?_).1
  · obtain ⟨ht, hf⟩ := hinv
    refine ⟨ht, fun filename modeStr res v he hres => ?_, fun fd hfd => ?_, fun fd hfd => ?_⟩
    · exact ((ht.fopen_meets hf).of_eq he).2.2 hres
    · obtain ⟨res, v, he, rfl, hv⟩ := (ht.fclose_open hf hfd).exists_result
      exact ⟨v, he, hv⟩
    · exact ht.fclose_not_open hfd
  · refine ⟨⟨?_, List.nodup_nil, by simp [openFds], ?_⟩, ?_⟩
    · intro i d hd
      rw [h0] at hd
      cases hd
    · intro i
      simp [openFds, h0]
    · intro i d hd
      rw [h0] at hd
      cases hd
  · rintro tr₁ s l t tr₂ - hs ⟨ht, hf⟩
    rw [openFds_concat]
    exact ht.step hf hs

/-- The root directory of the volume with the file `A`, as it is mounted. -/
def smallRoot : FatDirectory := ⟨0x1000000, fileEntry 65 ++ List.replicate 480 0, 1, 2, 3⟩

/-- The file `A` is opened there. -/
theorem smallRoot_fopen :
    ∃ k, fopen [48, 58, 47, 65] [114] (smallMounted smallRoot) = some (1, k) := by
  have h : (fopen [48, 58, 47, 65] [114] (smallMounted smallRoot)).map Prod.fst = some 1 := by
    decide +kernel
  obtain ⟨⟨_, k⟩, hk, rfl⟩ := Option.map_eq_some_iff.mp h
  exact ⟨k, hk⟩

/-- After `A` has been opened its descriptor 1 can be closed, once. -/
theorem descriptor_table_run_single : ∃ k v,
    fopen [48, 58, 47, 65] [114] (smallMounted smallRoot) = some (1, k) ∧
      fclose 1 k = some (0, v) ∧ fclose 2 k = some (- EIO, k) := by
  obtain ⟨k, hk⟩ := smallRoot_fopen
  obtain ⟨-, -, hopen, hclosed⟩ := descriptor_table_run (k := smallMounted smallRoot)
    (fun _ => rfl) (.cons (.fopen hk) (.nil k))
  have hfds : openFds [(smallMounted smallRoot, .fopen 1, k)] = [1] := rfl
  rw [hfds] at hopen hclosed
  obtain ⟨v, hv, -⟩ := hopen 1 (by decide)
  exact ⟨k, v, hk, hv, hclosed 2 (by decide)⟩

end Hyperion
