import Hyperion.DirectoryScan
import Hyperion.KernelHeap

/-!
# Looking a name up in a directory

`fat16_find_item_in_directory` ends with an item for the last of the first `total` raw
entries that decodes to the name. `total` counts the live entries before the terminator,
so behind deleted entries the search stops too early, and it does not skip them either.
The lookup in a root directory is complete and sound exactly when neither shows
(`rootLookup_right_iff`).

`SameName` is what the comparison decides : `istrncmp` answers 0 for the same name up to the case
of its letters (`istrncmpLoop_eq_zero`). A name is decoded to a buffer, and one that is too long for
it has no defined result (`FatDirectory.Fits`). `FatDirectory.lookup` is the entry that the search
ends with, and `fat16FindItemInDirectory_meets` says so of the loop, for a heap with blocks for the
items it makes on the way (`ItemsFit`).

The right answer (`LookupRight`) is stated on the directory as it is on the disk : an item if some
live entry decodes to the name, and then a copy of one. `ScanAgrees` is the condition on the
entries. A live file behind a deleted one does not meet it (`rootLookup_not_always_right`).
-/

namespace Hyperion

open Partial

/-! ## Entries -/

/-- The same name up to the case of its letters. -/
def SameName (s t : List UInt8) : Prop := s.map tolower = t.map tolower

instance (s t : List UInt8) : Decidable (SameName s t) := inferInstanceAs (Decidable (_ = _))

namespace FatDirectory

variable (dir : FatDirectory) (name : List UInt8)

/-- The entry `i` of the array. -/
def entry (i : ℕ) : List UInt8 := (dir.from i).take directoryItemSize

/-- The entry has not been deleted. -/
def Live (i : ℕ) : Prop := charAt (dir.from i) 0 ≠ 0xE5

/-- The name of the entry fits the buffer that it is decoded to. -/
def Fits (i : ℕ) : Prop := (fat16GetFullRelativeFilename (dir.from i)).isSome

/-- The entry decodes to `name`. -/
def Decodes (i : ℕ) : Prop :=
  ∃ s, fat16GetFullRelativeFilename (dir.from i) = some s ∧ SameName s name

/-- The entry is one that the search takes. -/
def taken (i : ℕ) : Bool :=
  (fat16GetFullRelativeFilename (dir.from i)).any fun s => istrncmp s name maxPath = 0

/-- The entries that the search takes, in order. -/
def matching : List ℕ := (List.range dir.total.toNat).filter (dir.taken name)

/-- The entry that the search ends with. -/
def lookup : Option (List UInt8) := (dir.matching name).getLast?.map dir.entry

end FatDirectory

/-! ## Names -/

theorem charAt_cons_zero (c : UInt8) (s : List UInt8) : charAt (c :: s) 0 = c := rfl

theorem charAt_cons_succ (c : UInt8) (s : List UInt8) (i : ℕ) :
    charAt (c :: s) (i + 1) = charAt s i := rfl

theorem charAt_nil (i : ℕ) : charAt [] i = 0 := rfl

/-- Only NUL becomes NUL in lower case. -/
theorem tolower_eq_zero (c : UInt8) : tolower c = 0 ↔ c = 0 := by
  unfold tolower
  split_ifs with h
  · refine iff_of_false (fun h0 => ?_) (fun h0 => ?_)
    · have : (c + 32).toNat = 0 := by rw [h0]; rfl
      have h₁ : 65 ≤ c.toNat := h.1
      have h₂ : c.toNat ≤ 90 := h.2
      rw [UInt8.toNat_add] at this
      change (c.toNat + 32) % 256 = 0 at this
      omega
    · rw [h0] at h
      exact absurd h.1 (by decide)
  · rfl

theorem istrncmpLoop_succ (c d : UInt8) (s t : List UInt8) : ∀ n i,
    istrncmpLoop (c :: s) (d :: t) n (i + 1) = istrncmpLoop s t n i
  | 0, _ => rfl
  | n + 1, i => by
    simp only [istrncmpLoop, charAt_cons_succ, istrncmpLoop_succ c d s t n (i + 1)]

theorem toNat_sub_ne_zero {c d : UInt8} (h : c ≠ d) : (c.toNat : Int) - d.toNat ≠ 0 := by
  intro h0
  exact h (UInt8.toNat_inj.mp (by omega))

/-- One round of the comparison, with the rounds after it. -/
theorem istrncmpLoop_step (s t : List UInt8) (n i : ℕ) : istrncmpLoop s t (n + 1) i = 0 ↔
    tolower (charAt s i) = tolower (charAt t i) ∧
      (charAt s i = 0 ∨ istrncmpLoop s t n (i + 1) = 0) := by
  simp only [istrncmpLoop]
  split_ifs with h h0
  · exact iff_of_false (toNat_sub_ne_zero h.1) fun h' => h.2 h'.1
  · refine iff_of_true rfl ⟨?_, .inl h0⟩
    by_contra hne
    exact h ⟨fun he => hne (by rw [he]), hne⟩
  · have hlow : tolower (charAt s i) = tolower (charAt t i) := by
      by_contra hne
      exact h ⟨fun he => hne (by rw [he]), hne⟩
    simp [hlow, h0]

/-- The comparison of two strings decides whether they are the same name. -/
theorem istrncmpLoop_eq_zero : ∀ {s t : List UInt8} {n : ℕ}, (0 : UInt8) ∉ s → (0 : UInt8) ∉ t →
    s.length ≤ n → t.length ≤ n → (istrncmpLoop s t n 0 = 0 ↔ SameName s t)
  | [], [], n, _, _, _, _ => by
    refine iff_of_true ?_ rfl
    cases n <;> rfl
  | [], d :: t, n + 1, _, ht, _, _ => by
    have hd : d ≠ 0 := fun h => ht (h ▸ List.mem_cons_self)
    rw [istrncmpLoop_step, charAt_nil, charAt_cons_zero]
    refine iff_of_false (fun h => hd ((tolower_eq_zero d).mp h.1.symm)) (by simp [SameName])
  | c :: s, [], n + 1, hs, _, _, _ => by
    have hc : c ≠ 0 := fun h => hs (h ▸ List.mem_cons_self)
    rw [istrncmpLoop_step, charAt_nil, charAt_cons_zero]
    refine iff_of_false (fun h => hc ((tolower_eq_zero c).mp h.1)) (by simp [SameName])
  | c :: s, d :: t, n + 1, hs, ht, hsn, htn => by
    have hc : c ≠ 0 := fun h => hs (h ▸ List.mem_cons_self)
    have ih : istrncmpLoop s t n 0 = 0 ↔ SameName s t :=
      istrncmpLoop_eq_zero (fun h => hs (List.mem_cons_of_mem _ h))
        (fun h => ht (List.mem_cons_of_mem _ h)) (by simpa using hsn) (by simpa using htn)
    rw [istrncmpLoop_step, charAt_cons_zero, charAt_cons_zero, istrncmpLoop_succ, ih]
    simp [SameName, hc]

/-- What is appended to a name has no NUL in it and ends within the buffer. -/
theorem fat16ToProperString_spec : ∀ {bs out s : List UInt8},
    fat16ToProperString bs out = some s → (0 : UInt8) ∉ out → out.length ≤ maxPath →
    (0 : UInt8) ∉ s ∧ s.length ≤ maxPath
  | [], _, _, h, _, _ => nomatch h
  | c :: bs, out, s, h, h0, hlen => by
    rw [fat16ToProperString] at h
    split_ifs at h with hc hfull hspace
    · exact Option.some.inj h ▸ ⟨h0, hlen⟩
    · exact Option.some.inj h ▸ ⟨h0, hlen⟩
    · refine fat16ToProperString_spec h ?_ (by simp; omega)
      simpa [h0] using Ne.symm hc

theorem fat16GetFullRelativeFilename_spec {bs s : List UInt8}
    (h : fat16GetFullRelativeFilename bs = some s) : (0 : UInt8) ∉ s ∧ s.length ≤ maxPath := by
  simp only [fat16GetFullRelativeFilename, Option.bind_eq_bind, Option.bind_eq_some_iff] at h
  obtain ⟨out, hout, h⟩ := h
  obtain ⟨h0, hlen⟩ := fat16ToProperString_spec hout (by simp) (by simp)
  split_ifs at h with hext hfull
  · exact fat16ToProperString_spec h (by simp [h0]) (by simp; omega)
  · exact Option.some.inj h ▸ ⟨h0, hlen⟩

/-- A string that can be a part of a path. -/
structure PathPart (name : List UInt8) : Prop where
  noNul : (0 : UInt8) ∉ name
  length : name.length ≤ maxPath

/-- The search takes the entries that decode to the name. -/
theorem FatDirectory.taken_iff {dir : FatDirectory} {name : List UInt8} (hname : PathPart name)
    {i : ℕ} : dir.taken name i ↔ dir.Decodes name i := by
  unfold taken Decodes
  rw [Option.any_eq_true]
  refine exists_congr fun s => and_congr_right fun hs => ?_
  obtain ⟨h0, hlen⟩ := fat16GetFullRelativeFilename_spec hs
  rw [decide_eq_true_iff]
  exact istrncmpLoop_eq_zero h0 hname.noNul hlen hname.length

/-! ## Making items -/

section Items

variable (image : DiskImage) (p : FatPrivate) (e : List UInt8)

/-- The number of entries of the subdirectory that `e` leads to. -/
def subdirectoryItems : Option Int :=
  fat16GetTotalItemsForDirectory image (fat16ClusterToSector p (fat16GetFirstCluster e))

/-- If `e` is a subdirectory, its entries can be counted and read. -/
def Loadable : Prop :=
  itemIsSubdirectory e → ∃ t : ℕ, subdirectoryItems image p e = some (t : Int) ∧
  (fat16ReadInternal image p (fat16GetFirstCluster e) 0 (t * directoryItemSize : ℕ)).isSome

/-- The number of heap blocks that making an item for `e` takes at most. -/
def itemBlocks : ℕ :=
  if itemIsSubdirectory e then
    3 + (((subdirectoryItems image p e).getD 0).toNat * directoryItemSize + 4095) / 4096
  else 2

end Items

section Making

variable {r : Prop} {k : Kernel} {p : FatPrivate} {e : List UInt8}

theorem Kernel.image_of_globals {k' : Kernel} (h : k'.globals = k.globals) : k'.image = k.image :=
  show k'.globals.image = k.globals.image by rw [h]

theorem Kernel.disk_of_globals {k' : Kernel} (h : k'.globals = k.globals) : k'.disk = k.disk :=
  show k'.globals.disk = k.globals.disk by rw [h]

@[simp] theorem kfree_iff {a : ℕ} {Q : Unit → Kernel → Prop} :
    Meets r (kfree a) k Q ↔ Q () (k.release a) := Meets.modify_iff

/-- Freeing a directory frees blocks and changes nothing else but the store. -/
theorem fat16FreeDirectory_meets {a : ℕ} {d : FatDirectory} :
    Meets r (fat16FreeDirectory (.directory a d)) k fun _ k' =>
      k'.globals = k.globals ∧ k.freeBlocks ≤ k'.freeBlocks := by
  simp only [fat16FreeDirectory, Meets.bind_iff, Meets.ite_iff, kfree_iff]
  refine ⟨fun _ => ⟨rfl, ?_⟩, fun _ => ⟨rfl, k.freeBlocks_release a⟩⟩
  exact (k.freeBlocks_release d.item).trans (Kernel.freeBlocks_release _ a)

/-- Loading a directory takes a block for the structure and those of the array. -/
theorem fat16LoadFatDirectory_meets (hp : k.disk.fsPrivate = some p)
    (hl : Loadable k.image p e) (hroom : itemBlocks k.image p e ≤ k.freeBlocks + 1)
    (hsub : itemIsSubdirectory e) :
    Meets r (fat16LoadFatDirectory e) k fun _ k' =>
      k'.globals = k.globals ∧ k.freeBlocks + 2 ≤ k'.freeBlocks + itemBlocks k.image p e := by
  obtain ⟨t, ht, hread⟩ := hl hsub
  have hblocks : itemBlocks k.image p e = 3 + (t * directoryItemSize + 4095) / 4096 := by
    simp [itemBlocks, hsub, ht]
  have hfree : k.freeBlocks ≤ 25600 := k.freeBlocks_le
  have hbytes : t * directoryItemSize ≤ 104857600 := by omega
  have hsize : asUnsigned ((t : Int) * directoryItemSize) = t * directoryItemSize := by
    unfold asUnsigned
    omega
  have hsigned : asSigned (t * directoryItemSize) = (t * directoryItemSize : ℕ) :=
    asSigned_of_lt (by omega)
  simp only [fat16LoadFatDirectory, Meets.bind_iff, fsPrivate_iff, hp, Option.some.injEq,
    Meets.get_iff, hsub, Bool.not_true, Bool.false_eq_true, if_false]
  refine ⟨?_, fun h => absurd h (by simp)⟩
  rintro _ rfl
  refine Kernel.kzalloc_any_meets (by omega) fun a k₁ hg₁ hf₁ => ?_
  rw [requestBlocks_one (by omega) (by omega)] at hf₁
  have hitems : fat16GetTotalItemsForDirectory k.image
      (fat16ClusterToSector p (fat16GetFirstCluster e)) = some (t : Int) := ht
  obtain ⟨x, hx⟩ := Option.isSome_iff_exists.mp hread
  rw [hitems]
  simp only [Meets.ite_iff, Meets.bind_iff, defined_iff, Option.some.injEq, forall_eq',
    reduceCtorEq, false_imp_iff, and_true, hsize, hsigned, hx, Meets.pure_iff]
  refine ⟨fun _ => Meets.pure_iff.mpr ⟨hg₁, by omega⟩, fun _ => ?_⟩
  refine Kernel.kzalloc_any_meets hbytes fun b k₂ hg₂ hf₂ => ?_
  rw [Kernel.requestBlocks_eq hbytes] at hf₂
  have hg := hg₂.trans hg₁
  refine ⟨fun _ => ?_, fun _ => ⟨fun _ => ?_, fun _ => ⟨hg, by omega⟩⟩⟩
  all_goals
    refine fat16FreeDirectory_meets.mono fun _ k₃ h₃ => ⟨h₃.1.trans hg, ?_⟩
    have hkept := h₃.2
    omega

/-- An item that is made is a copy of the entry, of type file. -/
theorem fat16NewFatItemForDirectoryItem_meets (hp : k.disk.fsPrivate = some p)
    (hl : Loadable k.image p e) (hroom : itemBlocks k.image p e ≤ k.freeBlocks) :
    Meets r (fat16NewFatItemForDirectoryItem e) k fun item k' =>
      (∃ self a, item = some ⟨self, .item a e, .file⟩) ∧ k'.globals = k.globals ∧
        k.freeBlocks ≤ k'.freeBlocks + itemBlocks k.image p e := by
  have htwo : 2 ≤ itemBlocks k.image p e := by
    unfold itemBlocks
    split_ifs <;> omega
  simp only [fat16NewFatItemForDirectoryItem, Meets.bind_iff]
  refine Kernel.kzalloc_free_meets (by omega) (by omega) (by omega) fun self k₁ hself hg₁ hf₁ => ?_
  rw [if_neg hself]
  -- the rest, from a state in which a block is left
  have hclone {k₂ : Kernel} (hg : k₂.globals = k.globals)
      (hf : k.freeBlocks + 1 ≤ k₂.freeBlocks + itemBlocks k.image p e) :
      Meets r (fat16CloneDirectoryItem e directoryItemSize) k₂ fun copy k' =>
        (∃ a, copy = .item a e) ∧ k'.globals = k.globals ∧
          k.freeBlocks ≤ k'.freeBlocks + itemBlocks k.image p e := by
    simp only [fat16CloneDirectoryItem, lt_irrefl, if_false, Meets.bind_iff]
    refine Kernel.kzalloc_free_meets (by decide) (by decide) (by omega) fun a k₃ ha hg₃ hf₃ => ?_
    rw [if_neg ha]
    exact Meets.pure_iff.mpr ⟨⟨a, rfl⟩, hg₃.trans hg, by omega⟩
  have himage := Kernel.image_of_globals hg₁
  refine Meets.ite_iff.mpr ⟨fun hsub => ?_, fun _ => ?_⟩
  · rw [← Kernel.disk_of_globals hg₁] at hp
    rw [← himage] at hl
    refine .bind (fat16LoadFatDirectory_meets hp hl (by rw [himage]; omega) hsub) ?_
    rintro _ k₂ ⟨hg₂, hf₂⟩
    rw [himage] at hf₂
    refine .bind (hclone (hg₂.trans hg₁) (by omega)) ?_
    rintro _ k₃ ⟨⟨a, rfl⟩, h⟩
    exact Meets.pure_iff.mpr ⟨⟨self, a, rfl⟩, h⟩
  · refine .bind (hclone hg₁ (by omega)) ?_
    rintro _ k₃ ⟨⟨a, rfl⟩, h⟩
    exact Meets.pure_iff.mpr ⟨⟨self, a, rfl⟩, h⟩

/-! ## Searching -/

/-- The items for the entries that the search takes can be made. -/
structure ItemsFit (k : Kernel) (p : FatPrivate) (dir : FatDirectory) (entries : List ℕ) :
    Prop where
  mounted : k.disk.fsPrivate = some p
  loadable : ∀ i ∈ entries, Loadable k.image p (dir.entry i)
  room : (entries.map fun i => itemBlocks k.image p (dir.entry i)).sum ≤ k.freeBlocks

/-- The item `fItem` is for the entry `i`, if there is one, and otherwise the one before. -/
def ItemFor (dir : FatDirectory) (before : Option FatItem) (fItem : Option FatItem) :
    Option ℕ → Prop
  | some i => ∃ self a, fItem = some ⟨self, .item a (dir.entry i), .file⟩
  | none => fItem = before

theorem fat16FindItemLoop_meets {dir : FatDirectory} {name : List UInt8} :
    ∀ {fuel i : ℕ} {fItem : Option FatItem} {k : Kernel},
    (∀ j, i ≤ j → j < i + fuel → dir.Fits j) →
    ItemsFit k p dir ((List.range' i fuel).filter (dir.taken name)) →
    Meets r (fat16FindItemLoop dir name fuel i fItem) k fun item k' =>
      ItemFor dir fItem item ((List.range' i fuel).filter (dir.taken name)).getLast? ∧
        k'.globals = k.globals
  | 0, _, _, _, _, _ => Meets.pure_iff.mpr ⟨rfl, rfl⟩
  | fuel + 1, i, fItem, k, hfits, hitems => by
    obtain ⟨s, hs⟩ := Option.isSome_iff_exists.mp (hfits i le_rfl (by omega))
    have hlater : ∀ j, i + 1 ≤ j → j < i + 1 + fuel → dir.Fits j :=
      fun j hj hj' => hfits j (by omega) (by omega)
    have htaken : dir.taken name i = decide (istrncmp s name maxPath = 0) := by
      simp [FatDirectory.taken, hs]
    rw [List.range'_succ, List.filter_cons] at hitems ⊢
    simp only [fat16FindItemLoop, Meets.bind_iff, defined_iff, hs, Option.some.injEq,
      forall_eq', reduceCtorEq, false_imp_iff, and_true]
    refine Meets.ite_iff.mpr ⟨fun heq => ?_, fun hne => ?_⟩
    · have htrue : dir.taken name i = true := by simp [htaken, heq]
      rw [if_pos htrue] at hitems ⊢
      have hroom := hitems.room
      rw [List.map_cons, List.sum_cons] at hroom
      have hmade := fat16NewFatItemForDirectoryItem_meets (r := r) hitems.mounted
        (hitems.loadable i List.mem_cons_self) (by omega)
      refine .bind hmade ?_
      rintro item k₁ ⟨⟨self, a, rfl⟩, hg₁, hf₁⟩
      have himage := Kernel.image_of_globals hg₁
      have hrest : ItemsFit k₁ p dir ((List.range' (i + 1) fuel).filter (dir.taken name)) := by
        refine ⟨by rw [Kernel.disk_of_globals hg₁, hitems.mounted], fun j hj => ?_, ?_⟩
        · rw [himage]
          exact hitems.loadable j (List.mem_cons_of_mem _ hj)
        · rw [himage]
          omega
      refine (fat16FindItemLoop_meets hlater hrest).mono fun item k' h => ?_
      obtain ⟨hitem, hg⟩ := h
      refine ⟨?_, hg.trans hg₁⟩
      rw [List.getLast?_cons]
      cases hl : ((List.range' (i + 1) fuel).filter (dir.taken name)).getLast? with
      | none =>
        rw [hl] at hitem
        exact ⟨self, a, hitem⟩
      | some j =>
        rw [hl] at hitem
        exact hitem
    · have hfalse : ¬dir.taken name i = true := by simp [htaken, hne]
      rw [if_neg hfalse] at hitems ⊢
      exact fat16FindItemLoop_meets hlater hitems

/-- The search ends with an item for the last entry that it takes. -/
theorem fat16FindItemInDirectory_meets {dir : FatDirectory} {name : List UInt8}
    (hfits : ∀ i < dir.total.toNat, dir.Fits i) (hitems : ItemsFit k p dir (dir.matching name)) :
    Meets r (fat16FindItemInDirectory dir name) k fun item k' =>
      ItemFor dir none item (dir.matching name).getLast? ∧ k'.globals = k.globals := by
  unfold FatDirectory.matching at hitems ⊢
  rw [List.range_eq_range'] at hitems ⊢
  exact fat16FindItemLoop_meets (fun j _ hj => hfits j (by omega)) hitems

/-- A name that overflows its buffer has no defined result. -/
theorem fat16FindItemLoop_fits {dir : FatDirectory} {name : List UInt8} :
    ∀ {fuel i : ℕ} {fItem : Option FatItem} {k : Kernel},
    Meets False (fat16FindItemLoop dir name fuel i fItem) k fun _ _ =>
      ∀ j, i ≤ j → j < i + fuel → dir.Fits j
  | 0, _, _, _ => Meets.pure_iff.mpr fun j hj hj' => absurd hj' (by omega)
  | fuel + 1, i, fItem, k => by
    simp only [fat16FindItemLoop, Meets.bind_iff, defined_iff]
    refine ⟨fun s hs => ?_, fun _ h => h⟩
    have hrest (item : Option FatItem) (k' : Kernel) :
        Meets False (fat16FindItemLoop dir name fuel (i + 1) item) k' fun _ _ =>
          ∀ j, i ≤ j → j < i + (fuel + 1) → dir.Fits j := by
      refine fat16FindItemLoop_fits.mono fun _ _ h j hj hj' => ?_
      rcases Nat.eq_or_lt_of_le hj with rfl | hlt
      · exact Option.isSome_iff_exists.mpr ⟨s, hs⟩
      · exact h j hlt (by omega)
    refine Meets.ite_iff.mpr ⟨fun _ => ?_, fun _ => hrest _ _⟩
    refine Meets.bind_iff.mpr (Meets.mono (Q := fun _ _ => True) ⟨fun _ _ _ => trivial,
      fun _ h => h⟩ fun _ _ _ => hrest _ _)

theorem fat16FindItemInDirectory_fits {dir : FatDirectory} {name : List UInt8} {k k' : Kernel}
    {item : Option FatItem} (h : fat16FindItemInDirectory dir name k = some (item, k')) :
    ∀ i < dir.total.toNat, dir.Fits i :=
  fun i hi => fat16FindItemLoop_fits.of_eq h i (Nat.zero_le _) (by omega)

end Making

/-! ## The root directory -/

/-- The position of the root directory on the disk. -/
def rootStart (header : FatHeader) : ℕ :=
  (header.fatCopies * header.sectorsPerFat + header.reservedSectors) * sectorSize

/-- On the disk the root directory has `n` entries, live and deleted ones, before an
all-zero one. The positions of its bytes are those that the disk streamer can count to. -/
structure RootContent (image : DiskImage) (header : FatHeader) (n : ℕ) : Prop where
  entries : ∀ i < n, diskByte image (rootStart header + directoryItemSize * i) ≠ 0
  terminator : ∀ j < directoryItemSize,
    diskByte image (rootStart header + directoryItemSize * n + j) = 0
  inside : n < header.rootDirEntries
  addressable : rootStart header + directoryItemSize * header.rootDirEntries < 2147483648

section Root

variable {k k₀ k₁ : Kernel} {header : FatHeader} {n : ℕ} {dir : FatDirectory} {p : FatPrivate}
  {name : List UInt8}

/-- The loaded directory has the bytes of the disk, and counts its live entries. -/
theorem fat16GetRootDirectory_meets (hroot : RootContent k.image header n) :
    Meets False (fat16GetRootDirectory header) k fun out _ => ∀ dir, out.2 = some dir →
      dir.bytes = diskBytes k.image (rootStart header) (header.rootDirEntries * directoryItemSize) ∧
        dir.total = liveEntries k.image (rootStart header) n := by
  have hin := hroot.inside
  have haddr := hroot.addressable
  have hsector : (header.fatCopies : Int) * header.sectorsPerFat + header.reservedSectors =
      (header.fatCopies * header.sectorsPerFat + header.reservedSectors : ℕ) := by
    push_cast
    rfl
  have hlast : diskByte k.image (rootStart header + directoryItemSize * n) = 0 := by
    have h := hroot.terminator 0 (by decide)
    rwa [Nat.add_zero] at h
  have htotal : fat16GetTotalItemsForDirectory k.image
      (header.fatCopies * header.sectorsPerFat + header.reservedSectors : ℕ) =
      some (liveEntries k.image (rootStart header) n : Int) :=
    fat16GetTotalItemsForDirectory_eq k.image
      (lt_of_le_of_lt (by unfold rootStart directoryItemSize; omega) haddr) hroot.entries
      hlast
  have hread : diskstreamerRead k.image
      (diskstreamerSeek ⟨0⟩ (fat16SectorToAbsolute
        (header.fatCopies * header.sectorsPerFat + header.reservedSectors : ℕ)))
      (header.rootDirEntries * directoryItemSize : ℕ) = some
        (diskBytes k.image (rootStart header) (header.rootDirEntries * directoryItemSize),
          ⟨(rootStart header + header.rootDirEntries * directoryItemSize : ℕ)⟩) := by
    have hpos : fat16SectorToAbsolute
        (header.fatCopies * header.sectorsPerFat + header.reservedSectors : ℕ) =
        (rootStart header : ℕ) := by
      rw [fat16SectorToAbsolute, ← Int.natCast_mul]
      exact wrapInt_of_range (by omega) (by unfold rootStart at haddr; omega)
    rw [hpos]
    exact diskstreamerRead_eq k.image (by rw [Nat.mul_comm]; exact haddr)
  simp only [fat16GetRootDirectory, Meets.bind_iff, Meets.get_iff, defined_iff, hsector, htotal,
    hread, Option.some.injEq, forall_eq', reduceCtorEq, false_imp_iff, and_true]
  refine Meets.mono (Q := fun _ _ => True) ⟨fun _ _ _ => trivial, fun _ h => h⟩ fun a k' _ => ?_
  refine Meets.ite_iff.mpr ⟨fun _ => ?_, fun _ => ?_⟩
  · exact Meets.pure_iff.mpr fun _ h => absurd h (by simp)
  · refine Meets.pure_iff.mpr ?_
    rintro _ ⟨⟩
    exact ⟨rfl, rfl⟩

/-- The first byte of an entry, in a copy of it. -/
theorem FatDirectory.charAt_entry (i : ℕ) : charAt (dir.entry i) 0 = charAt (dir.from i) 0 := by
  unfold FatDirectory.entry
  cases dir.from i <;> rfl

/-! ## The lookup -/

/-- The answer to a lookup among `n` entries : an item if some live entry decodes to the
name, and then a copy of such an entry. -/
def LookupRight (dir : FatDirectory) (n : ℕ) (name : List UInt8) (item : Option FatItem) : Prop :=
  (item.isSome ↔ ∃ i < n, dir.Live i ∧ dir.Decodes name i) ∧
    ∀ f, item = some f →
      ∃ i < n, dir.Live i ∧ dir.Decodes name i ∧ ∃ a, f.union = .item a (dir.entry i)

/-- Among the first `total` raw entries every name fits its buffer, the last one that decodes
to the name is live, and there is one if a live entry before the terminator does. -/
structure ScanAgrees (dir : FatDirectory) (n : ℕ) (name : List UInt8) : Prop where
  fits : ∀ i < dir.total.toNat, dir.Fits i
  last : ∀ i < dir.total.toNat, dir.Decodes name i →
    (∀ j < dir.total.toNat, i < j → ¬dir.Decodes name j) → dir.Live i
  none : (∀ i < dir.total.toNat, ¬dir.Decodes name i) →
    ∀ i < n, dir.Live i → ¬dir.Decodes name i

theorem getLast?_filter_range {q : ℕ → Bool} {i : ℕ} : ∀ {m : ℕ},
    ((List.range m).filter q).getLast? = some i ↔
      i < m ∧ q i = true ∧ ∀ j < m, i < j → ¬q j = true
  | 0 => by simp
  | m + 1 => by
    rw [List.range_succ, List.filter_append, List.getLast?_append]
    by_cases hm : q m = true
    · rw [List.filter_cons_of_pos hm, List.filter_nil, List.getLast?_singleton, Option.some_or,
        Option.some.injEq]
      constructor
      · rintro rfl
        exact ⟨by omega, hm, fun j hj hj' => by omega⟩
      · rintro ⟨hi, hq, hlast⟩
        have : ¬i < m := fun hlt => hlast m (by omega) hlt hm
        omega
    · rw [List.filter_cons_of_neg hm]
      refine (getLast?_filter_range (m := m)).trans ⟨fun ⟨hi, hq, hlast⟩ => ?_,
        fun ⟨hi, hq, hlast⟩ => ?_⟩
      · refine ⟨by omega, hq, fun j hj hj' => ?_⟩
        rcases Nat.lt_or_eq_of_le (Nat.le_of_lt_succ hj) with h | rfl
        · exact hlast j h hj'
        · exact hm
      · have : i ≠ m := fun h => hm (h ▸ hq)
        exact ⟨by omega, hq, fun j hj => hlast j (by omega)⟩

/-- The last entry of those taken is the last that decodes to the name. -/
theorem FatDirectory.matching_getLast? (hname : PathPart name) {i : ℕ} :
    (dir.matching name).getLast? = some i ↔ i < dir.total.toNat ∧ dir.Decodes name i ∧
      ∀ j < dir.total.toNat, i < j → ¬dir.Decodes name j := by
  unfold FatDirectory.matching
  simp only [getLast?_filter_range, taken_iff hname]

theorem FatDirectory.matching_eq_nil (hname : PathPart name) :
    (dir.matching name).getLast? = none ↔ ∀ i < dir.total.toNat, ¬dir.Decodes name i := by
  simp [FatDirectory.matching, taken_iff hname]

/-- The search in a loaded root directory returns the right answer exactly when the entries
that it looks at agree with the live ones before the terminator. -/
theorem rootLookup_right_iff (hroot : RootContent k₀.image header n)
    (hdir : fat16GetRootDirectory header k₀ = some ((0, some dir), k₁)) (hname : PathPart name)
    (hitems : ItemsFit k p dir (dir.matching name)) :
    (∃ item k', fat16FindItemInDirectory dir name k = some (item, k') ∧
      LookupRight dir n name item) ↔ ScanAgrees dir n name := by
  obtain ⟨hbytes, htotal⟩ := (fat16GetRootDirectory_meets hroot).of_eq hdir dir rfl
  have hle : dir.total.toNat ≤ n := by
    have := liveEntries_le k₀.image (rootStart header) n
    omega
  constructor
  · rintro ⟨item, k', hfind, hsome, hcopy⟩
    have hfits := fat16FindItemInDirectory_fits hfind
    obtain ⟨hitem, -⟩ := (fat16FindItemInDirectory_meets (r := False) hfits hitems).of_eq hfind
    refine ⟨hfits, fun i hi hdec hlast => ?_, fun hnone i hi hl hdec => ?_⟩
    · rw [(FatDirectory.matching_getLast? hname).mpr ⟨hi, hdec, hlast⟩] at hitem
      obtain ⟨self, a, rfl⟩ := hitem
      obtain ⟨j, -, hj, -, b, hcopied⟩ := hcopy _ rfl
      have he : dir.entry i = dir.entry j := (FatItemUnion.item.inj hcopied).2
      unfold FatDirectory.Live at hj ⊢
      rwa [← FatDirectory.charAt_entry, he, FatDirectory.charAt_entry]
    · rw [(FatDirectory.matching_eq_nil hname).mpr hnone] at hitem
      have := hsome.mpr ⟨i, hi, hl, hdec⟩
      rw [hitem] at this
      exact absurd this (by simp)
  · intro hscan
    obtain ⟨item, k', hfind, hitem, -⟩ :=
      (fat16FindItemInDirectory_meets (r := True) hscan.fits hitems).exists_result
    refine ⟨item, k', hfind, ?_⟩
    cases hl : (dir.matching name).getLast? with
    | none =>
      rw [hl] at hitem
      have hnone := (FatDirectory.matching_eq_nil hname).mp hl
      rw [show item = none from hitem]
      refine ⟨iff_of_false (by simp) ?_, fun _ h => nomatch h⟩
      rintro ⟨i, hi, hlive, hdec⟩
      exact hscan.none hnone i hi hlive hdec
    | some i =>
      rw [hl] at hitem
      obtain ⟨self, a, rfl⟩ := hitem
      obtain ⟨hi, hdec, hlast⟩ := (FatDirectory.matching_getLast? hname).mp hl
      have hlive := hscan.last i hi hdec hlast
      refine ⟨iff_of_true rfl ⟨i, by omega, hlive, hdec⟩, ?_⟩
      rintro _ ⟨⟩
      exact ⟨i, by omega, hlive, hdec, a, rfl⟩

end Root

/-! ## Two root directories -/

theorem Kernel.freeBlocks_empty {k : Kernel} (h : k.heapTable = Kernel.empty.heapTable) :
    k.freeBlocks = heapTotalBlocks := by
  have hfree : ∀ b ∈ Finset.range heapTotalBlocks, k.heapTable (b : ℕ) = blockFree := by
    intro b _
    rw [h]
    rfl
  rw [Kernel.freeBlocks, Finset.filter_true_of_mem hfree, Finset.card_range]

/-- The state in which the volume with the root directory `dir` is mounted. -/
def smallMounted (dir : FatDirectory) : Kernel :=
  { smallKernel (fileEntry 65 ++ fileEntry 0xE5) [] with disk := ⟨true, some ⟨smallHeader, dir⟩⟩ }

/-- The root directory with the file `A` and a deleted file behind it, and the search for
`a` in it. -/
theorem smallRoot_loaded : ∃ dir k₁, fat16GetRootDirectory smallHeader
      (smallKernel (fileEntry 65 ++ fileEntry 0xE5) []) = some ((0, some dir), k₁) ∧
    dir.total = 1 ∧ dir.matching [97] = [0] ∧ dir.entry 0 = fileEntry 65 ∧
    fat16GetFullRelativeFilename (dir.from 0) = some [65] := by
  have h : ((fat16GetRootDirectory smallHeader
      (smallKernel (fileEntry 65 ++ fileEntry 0xE5) [])).map fun x =>
      (x.1.1, x.1.2.map fun dir => decide (dir.total = 1 ∧ dir.matching [97] = [0] ∧
        dir.entry 0 = fileEntry 65 ∧ fat16GetFullRelativeFilename (dir.from 0) = some [65]))) =
      some (0, some true) := by
    decide +kernel
  obtain ⟨⟨⟨res, out⟩, k₁⟩, hrun, hout⟩ := Option.map_eq_some_iff.mp h
  obtain ⟨rfl, hout⟩ := Prod.mk.inj hout
  obtain ⟨dir, rfl, hdir⟩ := Option.map_eq_some_iff.mp hout
  exact ⟨dir, k₁, hrun, of_decide_eq_true hdir⟩

/-- With the whole heap free the item can be made. -/
theorem smallMounted_itemsFit {dir : FatDirectory} (hmatching : dir.matching [97] = [0])
    (hentry : dir.entry 0 = fileEntry 65) :
    ItemsFit (smallMounted dir) ⟨smallHeader, dir⟩ dir (dir.matching [97]) := by
  have hfree : (smallMounted dir).freeBlocks = 25600 := Kernel.freeBlocks_empty rfl
  have hblocks (image : DiskImage) (p : FatPrivate) : itemBlocks image p (fileEntry 65) = 2 :=
    if_neg (by decide)
  rw [hmatching]
  refine ⟨rfl, fun i hi hsub => ?_, ?_⟩
  · rw [List.mem_singleton.mp hi, hentry] at hsub
    exact absurd hsub (by decide)
  · rw [hfree, List.map_singleton, hentry, hblocks]
    decide

/-- A live file `A` before a deleted one is found by the name `a`. -/
theorem rootLookup_right_deleted : ∃ dir k₁ item k',
    fat16GetRootDirectory smallHeader (smallKernel (fileEntry 65 ++ fileEntry 0xE5) []) =
        some ((0, some dir), k₁) ∧
      fat16FindItemInDirectory dir [97] (smallMounted dir) = some (item, k') ∧
      LookupRight dir 2 [97] item := by
  obtain ⟨dir, k₁, hrun, htotal, hmatching, hentry, hname⟩ := smallRoot_loaded
  have hroot :
      RootContent (smallKernel (fileEntry 65 ++ fileEntry 0xE5) []).image smallHeader 2 :=
    ⟨by decide, by decide, by decide, by decide⟩
  have hdecodes : dir.Decodes [97] 0 := ⟨[65], hname, by decide⟩
  have hone : ∀ i < dir.total.toNat, i = 0 := by
    rw [htotal]
    exact fun i hi => Nat.lt_one_iff.mp hi
  have hscan : ScanAgrees dir 2 [97] := by
    refine ⟨fun i hi => ?_, fun i hi _ _ => ?_, fun hnone => ?_⟩
    · rw [hone i hi]
      exact Option.isSome_iff_exists.mpr ⟨_, hname⟩
    · rw [hone i hi, FatDirectory.Live, ← FatDirectory.charAt_entry, hentry]
      decide
    · exact absurd hdecodes (hnone 0 (by rw [htotal]; decide))
  obtain ⟨item, k', hfind, hright⟩ := (rootLookup_right_iff hroot hrun ⟨by decide, by decide⟩
    (smallMounted_itemsFit hmatching hentry)).mpr hscan
  exact ⟨dir, k₁, item, k', hrun, hfind, hright⟩

/-- A live file behind a deleted one is not found. -/
theorem rootLookup_not_always_right : ¬∀ (k₀ k₁ k' : Kernel) (header : FatHeader) (n : ℕ)
    (dir : FatDirectory) (name : List UInt8) (item : Option FatItem),
    RootContent k₀.image header n →
    fat16GetRootDirectory header k₀ = some ((0, some dir), k₁) → PathPart name →
    fat16FindItemInDirectory dir name k₁ = some (item, k') → LookupRight dir n name item := by
  intro hall
  have h : ((fat16GetRootDirectory smallHeader
      (smallKernel (fileEntry 0xE5 ++ fileEntry 65) [])).map fun x =>
      (x.1.1, x.1.2.map fun dir => decide (dir.entry 1 = fileEntry 65 ∧
        (fat16FindItemInDirectory dir [97] x.2).map Prod.fst = some none ∧
        fat16GetFullRelativeFilename (dir.from 1) = some [65]))) = some (0, some true) := by
    decide +kernel
  obtain ⟨⟨⟨res, out⟩, k₁⟩, hrun, hout⟩ := Option.map_eq_some_iff.mp h
  obtain ⟨rfl, hout⟩ := Prod.mk.inj hout
  obtain ⟨dir, rfl, hdir⟩ := Option.map_eq_some_iff.mp hout
  obtain ⟨hentry, hfind, hname⟩ := of_decide_eq_true hdir
  obtain ⟨⟨item, k'⟩, hfind, rfl⟩ := Option.map_eq_some_iff.mp hfind
  have hroot :
      RootContent (smallKernel (fileEntry 0xE5 ++ fileEntry 65) []).image smallHeader 2 :=
    ⟨by decide, by decide, by decide, by decide⟩
  have hright := hall _ _ _ _ _ _ [97] _ hroot hrun ⟨by decide, by decide⟩ hfind
  have hlive : dir.Live 1 := by
    rw [FatDirectory.Live, ← FatDirectory.charAt_entry, hentry]
    decide
  exact absurd (hright.1.mpr ⟨1, by decide, hlive, [65], hname, by decide⟩) (by simp)

end Hyperion
