import Hyperion.DirectoryLookup
import Hyperion.DiskPositions

/-!
# Resolving a path

What a path leads to in the directory tree of a volume, and when
`fat16_get_directory_entry` finds it.

* `Leads` is the reference : every part of the path names a live entry before the terminator of
  its directory, and all of them but the last one a subdirectory, whose own entries lie in the
  cluster that the entry points to. It says nothing of counts or of the order of entries.
* `EntryRight` measures an answer against it : an item exactly if the path leads to an entry,
  and then a copy of such an entry.

Behind `fat16_new_fat_item_for_directory_item` every item is of type file, whatever its entry,
so the walk stops behind the first part of a path (`fat16GetDirectoryEntry_meets`). A path of
more parts is therefore answered rightly exactly if it leads nowhere, and a path of one part
exactly if the search among the first `total` raw entries finds what there is to find
(`ScanFinds`).
-/

namespace Hyperion

open Partial

/-- The entry is a live one, and the directory has not ended before it. -/
def FatDirectory.Listed (dir : FatDirectory) (i : ℕ) : Prop :=
  (∀ j ≤ i, charAt (dir.from j) 0 ≠ 0) ∧ dir.Live i

/-- The entry `i` of a directory is listed and has the name `part`. -/
def FatDirectory.Lists (dir : FatDirectory) (part : List UInt8) (i : ℕ) : Prop :=
  dir.Listed i ∧ dir.Decodes part i

section Tree

variable (image : DiskImage) (header : FatHeader)

/-- The directory that a subdirectory entry leads to, as it lies in its cluster on the disk.
Only the array of entries counts here. -/
def clusterDirectory (e : List UInt8) : FatDirectory :=
  { item := 0
    bytes := diskBytes image (exactPos header (fat16GetFirstCluster e) 0)
      (header.sectorsPerCluster * sectorSize)
    total := 0
    sectorPos := 0
    endingSectorPos := 0 }

/-- A path leads from a directory to an entry : the first part names a listed entry, and the
rest of the path leads on from the subdirectory of this entry. -/
def Leads : (path : List (List UInt8)) → FatDirectory → List UInt8 → Prop
  | [], _, _ => False
  | [part], dir, e => ∃ i, dir.Lists part i ∧ dir.entry i = e
  | part :: parts, dir, e => ∃ i, dir.Lists part i ∧ itemIsSubdirectory (dir.entry i) ∧
      Leads parts (clusterDirectory image header (dir.entry i)) e

/-- The answer for a path : an item exactly if the path leads to an entry, and then a copy of
such an entry. -/
def EntryRight (p : FatPrivate) (path : List (List UInt8)) (item : Option FatItem) : Prop :=
  (item.isSome ↔ ∃ e, Leads image p.header path p.rootDirectory e) ∧
    ∀ f, item = some f →
      ∃ e a, Leads image p.header path p.rootDirectory e ∧ f.union = .item a e

end Tree

/-- Among the first `total` raw entries the last one that decodes to the part is a copy of a
listed entry of that name, and if none decodes to it then no listed entry does. -/
structure ScanFinds (dir : FatDirectory) (part : List UInt8) : Prop where
  last : ∀ i < dir.total.toNat, dir.Decodes part i →
    (∀ j < dir.total.toNat, i < j → ¬dir.Decodes part j) →
    ∃ j, dir.Lists part j ∧ dir.entry j = dir.entry i
  none : (∀ i < dir.total.toNat, ¬dir.Decodes part i) → ∀ j, ¬dir.Lists part j

variable {k : Kernel} {p : FatPrivate} {part : List UInt8} {parts : List (List UInt8)}

/-- What is found by a path, from what is found by its first part. -/
theorem fat16GetDirectoryEntry_meets {r : Prop}
    (hfits : ∀ i < p.rootDirectory.total.toNat, p.rootDirectory.Fits i)
    (hitems : ItemsFit k p p.rootDirectory (p.rootDirectory.matching part)) :
    Meets r (fat16GetDirectoryEntry (part :: parts)) k fun item _ =>
      if parts = [] then
        ItemFor p.rootDirectory none item (p.rootDirectory.matching part).getLast?
      else item = none := by
  simp only [fat16GetDirectoryEntry, Meets.bind_iff, fsPrivate_iff, hitems.mounted,
    Option.some.injEq, forall_eq', reduceCtorEq, false_imp_iff, and_true]
  refine (fat16FindItemInDirectory_meets hfits hitems).mono fun item k' h => ?_
  have hitem := h.1
  cases hlast : (p.rootDirectory.matching part).getLast? with
  | none =>
    rw [hlast] at hitem
    rw [show item = none from hitem]
    refine Meets.pure_iff.mpr ?_
    split_ifs <;> rfl
  | some i =>
    rw [hlast] at hitem
    obtain ⟨self, a, rfl⟩ := hitem
    cases parts with
    | nil => exact Meets.pure_iff.mpr ⟨self, a, rfl⟩
    -- the item is of type file, whatever the entry
    | cons part' parts => exact Meets.pure_iff.mpr rfl

/-- The first lookup on a path must have a result. -/
theorem fat16GetDirectoryEntry_fits {k' : Kernel} {item : Option FatItem}
    (hp : k.disk.fsPrivate = some p)
    (h : fat16GetDirectoryEntry (part :: parts) k = some (item, k')) :
    ∀ i < p.rootDirectory.total.toNat, p.rootDirectory.Fits i := by
  obtain ⟨q, k₁, hq, h⟩ := bind_eq_some.mp h
  obtain ⟨_, _, hget, hq⟩ := bind_eq_some.mp hq
  cases hget
  rw [hp] at hq
  cases hq
  obtain ⟨_, _, hfind, -⟩ := bind_eq_some.mp h
  exact fat16FindItemInDirectory_fits hfind

/-- A path of one part leads to the entries that the root directory lists under this name. -/
theorem leads_singleton {image : DiskImage} {header : FatHeader} {dir : FatDirectory} :
    (∃ e, Leads image header [part] dir e) ↔ ∃ i, dir.Lists part i := by
  simp only [Leads]
  constructor
  · rintro ⟨e, i, hi, -⟩
    exact ⟨i, hi⟩
  · rintro ⟨i, hi⟩
    exact ⟨_, i, hi, rfl⟩

/-- The item of a search in the root directory is right for a path of one part exactly if the
search finds what there is. -/
theorem entryRight_singleton (hname : PathPart part) {image : DiskImage} {item : Option FatItem}
    (hitem : ItemFor p.rootDirectory none item (p.rootDirectory.matching part).getLast?) :
    EntryRight image p [part] item ↔ ScanFinds p.rootDirectory part := by
  rw [EntryRight, leads_singleton]
  cases hl : (p.rootDirectory.matching part).getLast? with
  | none =>
    rw [hl] at hitem
    have hnone := (FatDirectory.matching_eq_nil hname).mp hl
    rw [show item = none from hitem]
    constructor
    · rintro ⟨hsome, -⟩
      refine ⟨fun i hi hdec => absurd hdec (hnone i hi), fun _ j hj => ?_⟩
      exact absurd (hsome.mpr ⟨j, hj⟩) (by simp)
    · intro hscan
      refine ⟨iff_of_false (by simp) ?_, fun f hf => absurd hf (by simp)⟩
      rintro ⟨j, hj⟩
      exact hscan.none hnone j hj
  | some i =>
    rw [hl] at hitem
    obtain ⟨self, a, rfl⟩ := hitem
    obtain ⟨hi, hdec, hlast⟩ := (FatDirectory.matching_getLast? hname).mp hl
    constructor
    · rintro ⟨-, hcopy⟩
      obtain ⟨e, b, ⟨j, hj, he⟩, hunion⟩ := hcopy _ rfl
      have hentry : p.rootDirectory.entry i = e := (FatItemUnion.item.inj hunion).2
      refine ⟨fun i' hi' hdec' hlast' => ⟨j, hj, ?_⟩, fun hnone => absurd hdec (hnone i hi)⟩
      -- there is only one last entry
      have hsame : i' = i := by
        rcases Nat.lt_trichotomy i i' with h | h | h
        · exact absurd hdec' (hlast i' hi' h)
        · exact h.symm
        · exact absurd hdec (hlast' i hi h)
      rw [hsame, he, hentry]
    · intro hscan
      obtain ⟨j, hj, he⟩ := hscan.last i hi hdec hlast
      refine ⟨iff_of_true rfl ⟨j, hj⟩, ?_⟩
      rintro _ ⟨⟩
      exact ⟨_, a, ⟨j, hj, he⟩, rfl⟩

/-- The first entry of a directory is `e`, and its name is `name`. -/
def FirstNamed (dir : FatDirectory) (name e : List UInt8) : Prop :=
  dir.entry 0 = e ∧ charAt e 0 ≠ 0 ∧ charAt e 0 ≠ 0xE5 ∧
    fat16GetFullRelativeFilename (dir.from 0) = some name

instance (dir : FatDirectory) (name e : List UInt8) : Decidable (FirstNamed dir name e) :=
  inferInstanceAs (Decidable (_ ∧ _ ∧ _ ∧ _))

/-- The first entry is listed under its name. -/
theorem FirstNamed.lists {dir : FatDirectory} {name e : List UInt8} (h : FirstNamed dir name e)
    (hpart : SameName name part) : dir.Lists part 0 := by
  obtain ⟨hentry, h0, hlive, hname⟩ := h
  rw [← hentry, FatDirectory.charAt_entry] at h0 hlive
  refine ⟨⟨fun j hj => ?_, hlive⟩, name, hname, hpart⟩
  obtain rfl : j = 0 := by omega
  exact h0

end Hyperion
