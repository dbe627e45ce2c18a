import Hyperion.FileFrame
import Hyperion.Release

/-!
# The blocks of an open file

The descriptor that `fopen` opens has its structures in blocks of its own, so `fclose` takes
nothing from what was allocated in between.
-/

namespace Hyperion

open Partial

namespace Kernel

/-- `p` is null, or a block of its own that was free in `k₀`. -/
def Block (k₀ k : Kernel) (p : ℕ) : Prop := p = 0 ∨ (k₀.Fresh p ∧ k.Owns p 1)

variable {k k' k₀ : Kernel} {p size : ℕ}

/-- A block may be freed. -/
theorem Block.loose (h : Block k₀ k p) : k.Loose p := h.imp_right fun h => .inr ⟨1, h.2⟩

/-- It stays one while the heap is kept. -/
theorem Block.kept (h : Block k₀ k p) (hg : Guarded k.table) (hk : k.Kept k') : Block k₀ k' p :=
  h.imp_right fun h => ⟨h.1, (hk hg).owns h.2⟩

/-- It was free even earlier. -/
theorem Block.since {k₁ : Kernel} (h : Block k₁ k p) (hk : k₀.Extends k₁) : Block k₀ k p :=
  h.imp_right fun h => ⟨hk.fresh h.1, h.2⟩

/-- The guard stays. -/
theorem Grows.guarded (h : k₀.Grows k) (hg : Guarded k₀.table) : Guarded k.table :=
  (h.heap hg).keeps.guarded hg

/-- An allocation of at most a page answers null or a block. -/
theorem kzalloc_block {Q : ℕ → Kernel → Prop} (hpos : 1 ≤ size) (hle : size ≤ 4096)
    (hQ : ∀ p k', k.Grows k' → Block k k' p → Q p k') : Meets False (kzalloc size) k Q := by
  refine kzalloc_one_meets (c := 0) hpos hle (·.elim) (fun _ => hQ 0 k (.refl k) (.inl rfl)) ?_
  intro b hb hf _
  exact hQ _ _ ⟨fun _ => (Extends.refl k).allocated_one hpos hle hb hf, rfl⟩
    (.inr ⟨⟨b, hb, rfl, hf⟩, allocated_owns_one hpos hle hb⟩)

end Kernel

/-- The union of an item that was made is null or a block. -/
def FatItemUnion.Block (k₀ k : Kernel) : FatItemUnion → Prop
  | .null => True
  | .item p _ => Kernel.Block k₀ k p
  | .directory p _ => Kernel.Block k₀ k p

/-- The structures of an item are blocks of their own, allocated since `k₀`. -/
structure FatItem.Blocks (k₀ k : Kernel) (item : FatItem) : Prop where
  self : Kernel.Block k₀ k item.self
  union : item.union.Block k₀ k
  type : item.type = .file

variable {k k' k₀ : Kernel}

/-- Of either member of the union. -/
theorem FatItemUnion.Block.imp {k₁ : Kernel} {u : FatItemUnion} (h : u.Block k₁ k)
    (hp : ∀ p, Kernel.Block k₁ k p → Kernel.Block k₀ k' p) : u.Block k₀ k' := by
  cases u with
  | null => trivial
  | item p bytes => exact hp p h
  | directory p d => exact hp p h

/-- The blocks of an item stay its own. -/
theorem FatItem.Blocks.kept {item : FatItem} (h : item.Blocks k₀ k) (hg : Guarded k.table)
    (hk : k.Kept k') : item.Blocks k₀ k' :=
  ⟨h.self.kept hg hk, h.union.imp fun _ hp => hp.kept hg hk, h.type⟩

/-- They were free even earlier. -/
theorem FatItem.Blocks.since {k₁ : Kernel} {item : FatItem} (h : item.Blocks k₁ k)
    (hk : k₀.Extends k₁) : item.Blocks k₀ k :=
  ⟨h.self.since hk, h.union.imp fun _ hp => hp.since hk, h.type⟩

section Items

variable {e name : List UInt8}

/-- An item is made of two new blocks. -/
theorem fat16NewFatItemForDirectoryItem_blocks (hg : Guarded k.table) :
    Meets False (fat16NewFatItemForDirectoryItem e) k fun item k' =>
      k.Grows k' ∧ ∀ i ∈ item, FatItem.Blocks k k' i := by
  simp only [fat16NewFatItemForDirectoryItem, Meets.bind_iff]
  refine Kernel.kzalloc_block (by decide) (by decide) fun self k₁ h₁ hself => ?_
  have hg₁ := h₁.guarded hg
  have hclone {k₂ : Kernel} (h₂ : k₁.Grows k₂) :
      Meets False (do
        let copy ← fat16CloneDirectoryItem e directoryItemSize
        return some { self := self, union := copy, type := .file }) k₂ fun item k' =>
          k.Grows k' ∧ ∀ i ∈ item, FatItem.Blocks k k' i := by
    simp only [fat16CloneDirectoryItem, lt_irrefl, if_false, Meets.bind_iff]
    refine Kernel.kzalloc_block (by decide) (by decide) fun copy k₃ h₃ hcopy => ?_
    have h' := h₁.trans (h₂.trans h₃)
    have hself' := hself.kept hg₁ (h₂.trans h₃).heap
    have hcopy' := hcopy.since ((h₁.trans h₂).heap hg)
    simp only [Meets.ite_iff, Meets.pure_iff, Option.mem_def, Option.some.injEq, forall_eq']
    exact ⟨fun _ => ⟨h', hself', trivial, rfl⟩, fun _ => ⟨h', hself', hcopy', rfl⟩⟩
  refine Meets.ite_iff.mpr ⟨fun _ => Meets.pure_iff.mpr ⟨h₁, by simp⟩, fun _ => ?_⟩
  refine Meets.ite_iff.mpr ⟨fun _ => ?_, fun _ => hclone (.refl _)⟩
  exact .bind (fat16LoadFatDirectory_frame (.grows _) (.refl _)) fun _ k₂ h₂ => hclone h₂

/-- So is the item that a search answers, by recursion on the entries that are left. -/
theorem fat16FindItemLoop_blocks {dir : FatDirectory} (hg : Guarded k₀.table) :
    ∀ (fuel : ℕ) {i : ℕ} {fItem : Option FatItem} {k : Kernel}, k₀.Grows k →
    (∀ i ∈ fItem, FatItem.Blocks k₀ k i) →
    Meets False (fat16FindItemLoop dir name fuel i fItem) k fun item k' =>
      k₀.Grows k' ∧ ∀ i ∈ item, FatItem.Blocks k₀ k' i
  | 0, _, _, _, h, hitem => Meets.pure_iff.mpr ⟨h, hitem⟩
  | fuel + 1, _, _, k, h, hitem => by
    refine Meets.bind_iff.mpr (defined_iff.mpr ⟨fun tmp _ => ?_, fun _ => not_false⟩)
    refine Meets.ite_iff.mpr ⟨fun _ => ?_, fun _ => fat16FindItemLoop_blocks hg fuel h hitem⟩
    refine .bind (fat16NewFatItemForDirectoryItem_blocks (h.guarded hg)) ?_
    intro item k₁ ⟨h₁, hmade⟩
    exact fat16FindItemLoop_blocks hg fuel (h.trans h₁) fun i hi => (hmade i hi).since (h.heap hg)

/-- An item that was made is not a directory, so a path of two parts leads nowhere. -/
theorem fat16GetDirectoryEntry_blocks (hg : Guarded k.table) {path : List (List UInt8)} :
    Meets False (fat16GetDirectoryEntry path) k fun item k' =>
      k.Grows k' ∧ ∀ i ∈ item, FatItem.Blocks k k' i := by
  simp only [fat16GetDirectoryEntry, Meets.bind_iff, fsPrivate_iff]
  refine ⟨fun fatPrivate _ => ?_, fun _ => not_false⟩
  cases path with
  | nil => exact Meets.fault_iff.mpr not_false
  | cons part parts =>
    refine .bind (fat16FindItemLoop_blocks hg _ (.refl k) (by simp)) fun root k₁ h => ?_
    obtain ⟨h₁, hroot⟩ := h
    cases root with
    | none => exact Meets.pure_iff.mpr ⟨h₁, by simp⟩
    | some item =>
      have hitem := hroot item rfl
      cases parts with
      | nil => exact Meets.pure_iff.mpr ⟨h₁, by simpa using hitem⟩
      | cons part' parts =>
        simp only [fat16GetDirectoryEntryLoop, hitem.type, ne_eq, reduceCtorEq,
          not_false_eq_true, if_true]
        exact Meets.pure_iff.mpr ⟨h₁, by simp⟩

end Items

/-! ## Descriptors -/

/-- The structures of an open file are blocks of their own, allocated since `k₀`. -/
structure FileDescriptor.Blocks (k₀ k : Kernel) (d : FileDescriptor) : Prop where
  self : Kernel.Block k₀ k d.self
  privateSelf : Kernel.Block k₀ k d.privateData.self
  item : d.privateData.item.Blocks k₀ k

/-- The pointers that `fclose` frees. -/
inductive FileDescriptor.Pointer (d : FileDescriptor) : ℕ → Prop
  | null : Pointer d 0
  | self : Pointer d d.self
  | privateSelf : Pointer d d.privateData.self
  | item : Pointer d d.privateData.item.self
  | union {p : ℕ} {bytes : List UInt8} :
      d.privateData.item.union = .item p bytes → Pointer d p
  | directory {p : ℕ} {dir : FatDirectory} :
      d.privateData.item.union = .directory p dir → Pointer d p

section Descriptors

variable {d : FileDescriptor} {path mode : List UInt8} {fd : Int} {parts : List (List UInt8)}

/-- The blocks of a descriptor stay its own. -/
theorem FileDescriptor.Blocks.kept (h : d.Blocks k₀ k) (hg : Guarded k.table) (hk : k.Kept k') :
    d.Blocks k₀ k' :=
  ⟨h.self.kept hg hk, h.privateSelf.kept hg hk, h.item.kept hg hk⟩

/-- Every pointer that `fclose` frees is null or a block. -/
theorem FileDescriptor.Pointer.block {p : ℕ} (hp : d.Pointer p) (h : d.Blocks k₀ k) :
    Kernel.Block k₀ k p := by
  have hu := h.item.union
  cases hp with
  | null => exact .inl rfl
  | self => exact h.self
  | privateSelf => exact h.privateSelf
  | item => exact h.item.self
  | union he =>
    rw [he] at hu
    exact hu
  | directory he =>
    rw [he] at hu
    exact hu

/-- An open file has two new blocks for its descriptor and item. -/
theorem fat16Open_blocks (hg : Guarded k.table) {fmode : FileMode} :
    Meets False (fat16Open parts fmode) k fun res k' =>
      k.Grows k' ∧ ∀ d, res = .ok d → Kernel.Block k k' d.self ∧ d.item.Blocks k k' := by
  rw [fat16Open]
  refine Meets.ite_iff.mpr ⟨fun _ => Meets.pure_iff.mpr ⟨.refl k, by simp⟩, fun _ => ?_⟩
  refine Meets.bind_iff.mpr
    (Kernel.kzalloc_block (by decide) (by decide) fun self k₁ h₁ hself => ?_)
  have hg₁ := h₁.guarded hg
  refine Meets.ite_iff.mpr ⟨fun _ => Meets.pure_iff.mpr ⟨h₁, by simp⟩, fun _ => ?_⟩
  refine .bind (fat16GetDirectoryEntry_blocks hg₁) fun item k₂ h => ?_
  obtain ⟨h₂, hitem⟩ := h
  cases item with
  | none => exact Meets.pure_iff.mpr ⟨h₁.trans h₂, by simp⟩
  | some item =>
    refine Meets.pure_iff.mpr ⟨h₁.trans h₂, fun d hd => ?_⟩
    obtain rfl := Except.ok.inj hd
    exact ⟨hself.kept hg₁ h₂.heap, (hitem item rfl).since (h₁.heap hg)⟩

/-- `k` is `k₀` with more allocated, and the descriptor `d` open as `fd`. -/
structure OpensBlocks (k₀ : Kernel) (fd : Int) (d : FileDescriptor) (k : Kernel) : Prop where
  heap : k₀.Kept k
  pos : 0 < fd
  lookup : fileGetDescriptor fd k = some (some d, k)
  index : d.index = fd
  globals : k.globals = k₀.globals.withDescriptor (fd - 1).toNat (some d)
  empty : k₀.fileDescriptors (fd - 1).toNat = none
  blocks : d.Blocks k₀ k

/-- The third is the descriptor in the table. -/
theorem fileNewDescriptorLoop_blocks {privateData : FatFileDescriptor}
    (hg : Guarded k₀.table) (h : k₀.Grows k) (hself : Kernel.Block k₀ k privateData.self)
    (hitem : privateData.item.Blocks k₀ k) : ∀ (fuel i : ℕ), i + fuel = maxFileDescriptors →
    Meets False (fileNewDescriptorLoop privateData fuel i) k fun res k' =>
      (res < 0 ∧ k₀.Grows k') ∨ ∃ d, OpensBlocks k₀ res d k'
  | 0, i, _ => Meets.pure_iff.mpr (.inl ⟨by decide, h⟩)
  | fuel + 1, i, hi => by
    simp only [fileNewDescriptorLoop, Meets.bind_iff, Meets.get_iff, Meets.ite_iff]
    refine ⟨fun hempty => ?_, fun _ => ?_⟩
    · refine Kernel.kzalloc_block (by decide) (by decide) fun self k₁ h₁ hblock => ?_
      simp only [Meets.fault_iff, setFileDescriptor_iff, Meets.pure_iff]
      refine ⟨fun _ => not_false, fun _ => .inr ⟨⟨self, i + 1, privateData⟩, ?_⟩⟩
      have hslot : ((i : Int) + 1 - 1).toNat = i := by omega
      have h' := h.trans h₁
      have hgk := h.guarded hg
      refine ⟨h'.heap.of_eq rfl rfl, by omega, ?_, rfl, ?_, ?_, hblock.since (h.heap hg),
        hself.kept hgk (h₁.heap.of_eq rfl rfl), hitem.kept hgk (h₁.heap.of_eq rfl rfl)⟩
      · rw [fileGetDescriptor_of_mem (by omega)]
        simp
      · rw [hslot, ← h'.globals]
        rfl
      · rw [hslot, ← Kernel.fileDescriptors_of_globals h.globals]
        exact hempty
    · exact fileNewDescriptorLoop_blocks hg h hself hitem fuel (i + 1) (by omega)

/-- `fopen` fails or opens a descriptor with blocks of its own. -/
theorem fopen_blocks (hg : Guarded k.table) :
    Meets False (fopen path mode) k fun fd k' =>
      (fd = 0 ∧ k.Grows k') ∨ ∃ d, OpensBlocks k fd d k' := by
  have hfail {k₁ : Kernel} (h₁ : k.Grows k₁) : Meets False (pure 0) k₁ fun fd k' =>
      (fd = 0 ∧ k.Grows k') ∨ ∃ d, OpensBlocks k fd d k' := Meets.pure_iff.mpr (.inl ⟨rfl, h₁⟩)
  refine .bind pathparserParse_meets fun root k₁ hroot => ?_
  have h₁ : k.Grows k₁ := by
    rcases hroot with ⟨-, -, rfl⟩ | ⟨-, -, k₂, p, hleaves, h₂⟩
    · exact .refl _
    · exact ⟨fun hg => (hleaves.grows).trans (h₂.heap (hleaves.grows.keeps.guarded hg)),
        h₂.globals.trans hleaves.globals⟩
  cases root with
  | none => exact hfail h₁
  | some root =>
    simp only [Meets.ite_iff, Meets.bind_iff, Meets.get_iff]
    refine ⟨fun _ => hfail h₁, fun _ => ⟨fun _ => hfail h₁, fun _ => ⟨fun _ => hfail h₁,
      fun _ => ⟨fun _ => hfail h₁, fun _ => ?_⟩⟩⟩⟩
    have hg₁ := h₁.guarded hg
    refine (fat16Open_blocks hg₁).mono fun res k₂ h => ?_
    obtain ⟨h₂, hd⟩ := h
    cases res with
    | error e => exact hfail (h₁.trans h₂)
    | ok d =>
      obtain ⟨hself, hitem⟩ := hd d rfl
      refine .bind (fileNewDescriptorLoop_blocks hg (h₁.trans h₂) (hself.since (h₁.heap hg))
        (hitem.since (h₁.heap hg)) _ 0 (by simp)) ?_
      rintro res k₃ (⟨hneg, h₃⟩ | ⟨d', hopen⟩)
      · exact Meets.ite_iff.mpr ⟨fun _ => hfail h₃, fun h => absurd hneg h⟩
      · have := hopen.pos
        exact Meets.ite_iff.mpr ⟨fun h => absurd h (by omega),
          fun _ => Meets.pure_iff.mpr (.inr ⟨d', hopen⟩)⟩

/-! ## `fclose` -/

/-- Closing an open descriptor frees its pointers and empties its slot, so what survives the
release of each of them holds afterwards. -/
theorem fclose_frees {I : Kernel → Prop} (hlook : fileGetDescriptor fd k = some (some d, k))
    (htype : d.privateData.item.type = .file) (hrel : ∀ k p, d.Pointer p → I k → I (k.release p))
    (heq : ∀ k k', k'.heapTable = k.heapTable → k'.store = k.store → I k → I k') (hI : I k) :
    Meets True (fclose fd) k fun res k' =>
      res = 0 ∧ I k' ∧ k'.globals = k.globals.withDescriptor (d.index - 1).toNat none := by
  have hitem {p : ℕ} (hp : d.Pointer p) {Q : Kernel → Prop}
      (hQ : ∀ k', I k' ∧ k'.globals = k.globals → Q k') :
      Meets True (do kfree p; kfree d.privateData.item.self) k fun _ k' => Q k' :=
    Meets.bind_iff.mpr (kfree_iff.mpr (kfree_iff.mpr
      (hQ _ ⟨hrel _ _ .item (hrel _ _ hp hI), rfl⟩)))
  have hfree {Q : Kernel → Prop} (hQ : ∀ k', I k' ∧ k'.globals = k.globals → Q k') :
      Meets True (fat16FatItemFree d.privateData.item) k fun _ k' => Q k' := by
    simp only [fat16FatItemFree, htype]
    cases hu : d.privateData.item.union with
    | null => exact hitem .null hQ
    | item p bytes => exact hitem (.union hu) hQ
    | directory p dir => exact hitem (.directory hu) hQ
  rw [fclose, Meets.bind_iff]
  refine .of_run_eq hlook ?_
  simp only [fat16Close, Meets.bind_iff]
  refine hfree fun k₁ h => ?_
  obtain ⟨h₁, hg₁⟩ := h
  simp only [kfree_iff, Meets.pure_iff, fileFreeDescriptor, Meets.bind_iff, setFileDescriptor_iff,
    Meets.ite_iff, not_true_eq_false, false_imp_iff, and_true, forall_const, true_and]
  constructor
  · refine hrel _ _ .self (heq (k₁.release d.privateData.self) _ rfl rfl ?_)
    exact hrel _ _ .privateSelf h₁
  · rw [← hg₁]
    rfl

/-- The second of two stores counts. -/
theorem Kernel.withDescriptor_withDescriptor (k : Kernel) (i : ℕ) (d d' : Option FileDescriptor) :
    (k.withDescriptor i d).withDescriptor i d' = k.withDescriptor i d' := by
  unfold withDescriptor
  congr 1
  funext j
  simp only
  split_ifs <;> rfl

/-- To store what is there changes nothing. -/
theorem Kernel.withDescriptor_self {i : ℕ} {d : Option FileDescriptor}
    (h : k.fileDescriptors i = d) : k.withDescriptor i d = k := by
  unfold withDescriptor
  congr 1
  funext j
  split_ifs with hj
  · rw [hj, h]
  · rfl

/-- The slot of an open descriptor. -/
theorem OpensBlocks.slot (h : OpensBlocks k₀ fd d k) : (d.index - 1).toNat = (fd - 1).toNat := by
  rw [h.index]

/-- What is allocated while the file is open, and what was before, is left by its end. -/
theorem OpensBlocks.close {k₁ : Kernel} (hg : Guarded k₀.table) (h : OpensBlocks k₀ fd d k)
    (hk : k.Grows k₁) : Meets False (fclose fd) k₁ fun _ k' => k₀.Grows k' ∧
      ∀ q n, k₁.Owns q n → ¬k₀.Fresh q ∨ k.Fresh q → k'.Owns q n ∧ k'.store q = k₁.store q := by
  have hg₁ : Guarded k.table := (h.heap hg).keeps.guarded hg
  have hlook : fileGetDescriptor fd k₁ = some (some d, k₁) := by
    have hd := h.lookup
    simp only [fileGetDescriptor] at hd ⊢
    split_ifs at hd ⊢
    · cases hd
    · simp only [run_bind, run_get, Option.bind_some, run_pure, Option.some.injEq, Prod.mk.injEq,
        and_true] at hd ⊢
      rw [Kernel.fileDescriptors_of_globals hk.globals, hd]
  have hblocks : d.Blocks k₀ k₁ := h.blocks.kept hg₁ hk.heap
  refine (Meets.of_total (fclose_frees (I := fun k' => Kernel.Drops d.Pointer k₁ k' ∧ k₀.Kept k')
    hlook h.blocks.item.type ?_ ?_ ⟨.refl (hk.guarded hg₁) fun p hp => (hp.block hblocks).loose,
      h.heap.trans hk.heap⟩)).mono ?_
  · rintro k' p hp ⟨hdrops, hkept⟩
    exact ⟨hdrops.release hp, hkept.release fun _ => (hp.block hblocks).imp_right And.left⟩
  · rintro k' k₂ ht hs ⟨hdrops, hkept⟩
    exact ⟨hdrops.of_eq ht hs, hkept.of_eq ht hs⟩
  · rintro _ k' ⟨-, ⟨hdrops, hkept⟩, hglob⟩
    refine ⟨⟨hkept, ?_⟩, fun q n ho hq => hdrops.owns q n ho fun hp => ?_⟩
    · rw [hglob, hk.globals, h.globals, h.slot, Kernel.withDescriptor_withDescriptor]
      exact Kernel.withDescriptor_self h.empty
    · -- the blocks of the descriptor were taken between `k₀` and `k`
      rcases hp.block h.blocks with rfl | ⟨hf, ho'⟩
      · exact ho.ne_zero rfl
      · rcases hq with hq | hq
        · exact hq hf
        · exact ho'.not_fresh hq

end Descriptors

end Hyperion
