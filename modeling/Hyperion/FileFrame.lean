import Hyperion.DirectoryLookup
import Hyperion.File

/-!
# What opening a file leaves alone

`Grows k₀ k` : everything that was allocated in `k₀`, and every global variable, is in `k`
as it was. The parser, the directory walk and `fopen` allocate and free on the way, and
free only what they have allocated, or the null pointer. So each of them keeps what
allocating and freeing keep (`Frame k₀`), such as `Grows k₀`, for every earlier state `k₀`, and
the pointers it hands out were free there.

The functions are gone through once, with a lemma `_frame` each, and the results for one property
or another are instances (`Frame.grows`). A pointer that is null or was free in `k₀` is `Unowned`,
so that freeing it takes nothing from `k₀`. To free the null pointer clears bytes below the block
table, up to one that has no next-block flag : that there is such a byte is an assumption on the
table (`Guarded`).

`pathparserParse_meets`, `fopen_meets` and `fclose_meets` are the calls as a whole. The structure
of a path that is accepted stays on the heap whatever comes of the file (`Leaves`).
-/

namespace Hyperion

open Partial

namespace Kernel

/-- Everything allocated in `k₀` is in `k` as it was. Freeing the null pointer stays outside
the heap only if its table is guarded. -/
def Kept (k₀ k : Kernel) : Prop := Guarded k₀.table → Extends k₀ k

/-- `k` is `k₀` with more allocated, and the same global variables. -/
structure Grows (k₀ k : Kernel) : Prop where
  heap : Kept k₀ k
  globals : k.globals = k₀.globals

/-- The pointer is null or was free in `k`, so freeing it takes nothing from `k`. -/
def Unowned (k : Kernel) (p : ℕ) : Prop := Guarded k.table → p = 0 ∨ k.Fresh p

section Grows

variable {k₀ k k' : Kernel} {p size b : ℕ} {Q : ℕ → Kernel → Prop} {R : Unit → Kernel → Prop}

/-- The null pointer is nobody's. -/
theorem Unowned.null : Unowned k 0 := fun _ => .inl rfl

/-- What is kept twice is kept. -/
theorem Kept.trans (h : Kept k₀ k) (h' : Kept k k') : Kept k₀ k' := fun hg =>
  (h hg).trans (h' ((h hg).keeps.guarded hg))

/-- What is nobody's may be freed. -/
theorem Kept.release (h : Kept k₀ k) (hp : k₀.Unowned p) : Kept k₀ (k.release p) := fun hg => by
  rcases hp hg with rfl | hp
  · exact (h hg).release_null hg
  · exact (h hg).release hp

/-- The heap and the store decide. -/
theorem Kept.of_eq (h : Kept k₀ k) (ht : k'.heapTable = k.heapTable) (hs : k'.store = k.store) :
    Kept k₀ k' := fun hg => (h hg).of_eq ht hs

theorem Grows.refl (k : Kernel) : Grows k k := ⟨fun _ => .refl k, rfl⟩

/-- Growth composes. -/
theorem Grows.trans (h : Grows k₀ k) (h' : Grows k k') : Grows k₀ k' :=
  ⟨h.heap.trans h'.heap, h'.globals.trans h.globals⟩

/-- It goes on when what is nobody's is freed. -/
theorem Grows.release (h : Grows k₀ k) (hp : k₀.Unowned p) : Grows k₀ (k.release p) :=
  ⟨h.heap.release hp, h.globals⟩

/-- `I` is kept by allocating, and by freeing what was free in `k₀`. -/
structure Frame (k₀ : Kernel) (I : Kernel → Prop) : Prop where
  kept : ∀ {k}, I k → Kept k₀ k
  alloc : ∀ {k size b}, I k → k.Answers size b → I (k.allocated b size)
  release : ∀ {k p}, I k → k₀.Unowned p → I (k.release p)

namespace Frame

variable {I : Kernel → Prop}

/-- Growth is a frame. -/
theorem grows (k₀ : Kernel) : Frame k₀ (Grows k₀) where
  kept h := h.heap
  alloc h hb := ⟨fun hg => (h.heap hg).allocated hb.lt hb.run hb.free, h.globals⟩
  release h hp := h.release hp

/-- Whatever the request, the answer is null or was free. -/
theorem kzalloc (hI : Frame k₀ I) (h : I k) (hQ : ∀ p k', I k' → k₀.Unowned p → Q p k') :
    Meets False (kzalloc size) k Q :=
  kzalloc_rule (hQ _ _ h .null) fun _ hb =>
    hQ _ _ (hI.alloc h hb) fun hg => .inr ((hI.kept h hg).fresh hb.fresh)

/-- A pointer that is nobody's is freed. -/
theorem kfree (hI : Frame k₀ I) (h : I k) (hp : k₀.Unowned p) (hR : ∀ k', I k' → R () k') :
    Meets False (kfree p) k R := kfree_iff.mpr (hR _ (hI.release h hp))

end Frame

/-- Whatever the request, the answer is null or was free, and nothing else changes. -/
theorem kzalloc_grows (h : Grows k₀ k)
    (hQ : ∀ p k', Grows k₀ k' → k₀.Unowned p → Q p k') : Meets False (kzalloc size) k Q :=
  (Frame.grows k₀).kzalloc h hQ

end Grows

end Kernel

variable {k₀ k : Kernel} {I : Kernel → Prop}

/-! ## The parser -/

section Parser

variable {path : List UInt8} (hI : k₀.Frame I)

include hI

/-- A part of a path is copied to new memory. -/
theorem pathparserGetPathPart_frame (h : I k) :
    Meets False (pathparserGetPathPart path) k fun _ k' => I k' := by
  simp only [pathparserGetPathPart, Meets.bind_iff]
  refine hI.kzalloc h fun p k₁ h₁ hp => ?_
  simp only [Meets.ite_iff, Meets.bind_iff, Meets.pure_iff, Meets.fault_iff]
  refine ⟨fun _ => not_false, fun _ => ⟨fun _ => ?_, fun _ => h₁⟩⟩
  exact hI.kfree h₁ hp fun k₂ h₂ => h₂

/-- And put to a new node. -/
theorem pathparserParsePathPart_frame (h : I k) :
    Meets False (pathparserParsePathPart path) k fun _ k' => I k' := by
  refine .bind (pathparserGetPathPart_frame hI h) ?_
  rintro ⟨part, rest⟩ k₁ h₁
  cases part with
  | none => exact Meets.pure_iff.mpr h₁
  | some part =>
    refine Meets.bind_iff.mpr (hI.kzalloc h₁ fun p k₂ h₂ _ => ?_)
    simp only [Meets.ite_iff, Meets.bind_iff, Meets.fault_iff, Meets.pure_iff]
    exact ⟨fun _ => not_false, fun _ => h₂⟩

/-- The parts one by one, by recursion on the fuel. -/
theorem pathparserParseParts_frame : ∀ (fuel : ℕ) {path : List UInt8}
    {k : Kernel}, I k →
    Meets False (pathparserParseParts fuel path) k fun _ k' => I k'
  | 0, _, _, h => Meets.pure_iff.mpr h
  | fuel + 1, _, _, h => by
    refine .bind (pathparserParsePathPart_frame hI h) ?_
    rintro ⟨part, rest⟩ k₁ h₁
    cases part with
    | none => exact Meets.pure_iff.mpr h₁
    | some part =>
      refine .bind (pathparserParseParts_frame fuel h₁) fun parts k₂ h₂ => ?_
      exact Meets.pure_iff.mpr h₂

end Parser

/-! ## Items -/

/-- The memory that the union points to can be freed. -/
def FatItemUnion.Unowned (k : Kernel) : FatItemUnion → Prop
  | .null => True
  | .item p _ => k.Unowned p
  | .directory p d => k.Unowned p ∧ k.Unowned d.item

/-- An item as the lookup makes them. -/
structure FatItem.Made (k : Kernel) (item : FatItem) : Prop where
  self : k.Unowned item.self
  union : item.union.Unowned k
  type : item.type = .file

section Items

variable {p : ℕ} {e : List UInt8} {name : List UInt8} {u : FatItemUnion} {item : FatItem}
  (hI : k₀.Frame I)

include hI

/-- A directory that is nobody's is freed. -/
theorem fat16FreeDirectory_frame (h : I k) (hu : u.Unowned k₀) :
    Meets False (fat16FreeDirectory u) k fun _ k' => I k' := by
  cases u with
  | null => exact Meets.pure_iff.mpr h
  | item p bytes => exact Meets.fault_iff.mpr not_false
  | directory p d =>
    simp only [fat16FreeDirectory, Meets.bind_iff, Meets.ite_iff]
    refine ⟨fun _ => ?_, fun _ => ?_⟩
    · refine hI.kfree h hu.2 fun k₁ h₁ => ?_
      exact hI.kfree h₁ hu.1 fun k₂ h₂ => h₂
    · exact hI.kfree h hu.1 fun k₁ h₁ => h₁

/-- A directory is loaded to new memory. -/
theorem fat16LoadFatDirectory_frame (h : I k) :
    Meets False (fat16LoadFatDirectory e) k fun _ k' => I k' := by
  have hnull {k₁ : Kernel} (h₁ : I k₁) {v : FatItemUnion} :
      Meets False (do fat16FreeDirectory .null; return v) k₁ fun _ k' => I k' :=
    .bind (fat16FreeDirectory_frame hI h₁ (u := .null) trivial) fun _ _ h₂ => Meets.pure_iff.mpr h₂
  simp only [fat16LoadFatDirectory, Meets.bind_iff, fsPrivate_iff, Meets.get_iff]
  refine ⟨fun fatPrivate _ => ?_, fun _ => not_false⟩
  rw [Meets.ite_iff]
  refine ⟨fun _ => hnull h, fun _ => Meets.bind_iff.mpr ?_⟩
  refine hI.kzalloc h fun directory k₁ h₁ hd => ?_
  refine Meets.ite_iff.mpr ⟨fun _ => hnull h₁, fun _ => Meets.bind_iff.mpr ?_⟩
  refine defined_iff.mpr ⟨fun totalItems _ => ?_, fun _ => not_false⟩
  refine Meets.bind_iff.mpr (hI.kzalloc h₁ fun p k₂ h₂ hp => ?_)
  refine Meets.ite_iff.mpr ⟨fun hp0 => ?_, fun _ => Meets.bind_iff.mpr ?_⟩
  · refine .bind (fat16FreeDirectory_frame hI h₂ ⟨hd, .null⟩) fun _ _ h₃ => ?_
    exact Meets.pure_iff.mpr h₃
  · refine defined_iff.mpr ⟨fun x _ => ?_, fun _ => not_false⟩
    simp only [Meets.bind_iff, Meets.ite_iff, Meets.pure_iff]
    refine ⟨fun _ => ?_, fun _ => h₂⟩
    exact fat16FreeDirectory_frame hI h₂ ⟨hd, hp⟩

/-- An item is made in new memory. -/
theorem fat16NewFatItemForDirectoryItem_frame (h : I k) :
    Meets False (fat16NewFatItemForDirectoryItem e) k fun item k' =>
      I k' ∧ ∀ i ∈ item, FatItem.Made k₀ i := by
  simp only [fat16NewFatItemForDirectoryItem, Meets.bind_iff]
  refine hI.kzalloc h fun self k₁ h₁ hself => ?_
  have hclone {k₂ : Kernel} (h₂ : I k₂) :
      Meets False (do
        let copy ← fat16CloneDirectoryItem e directoryItemSize
        return some { self := self, union := copy, type := .file }) k₂ fun item k' =>
          I k' ∧ ∀ i ∈ item, FatItem.Made k₀ i := by
    simp only [fat16CloneDirectoryItem, lt_irrefl, if_false, Meets.bind_iff]
    refine hI.kzalloc h₂ fun copy k₃ h₃ hcopy => ?_
    simp only [Meets.ite_iff, Meets.pure_iff, Option.mem_def, Option.some.injEq, forall_eq']
    exact ⟨fun _ => ⟨h₃, hself, trivial, rfl⟩, fun _ => ⟨h₃, hself, hcopy, rfl⟩⟩
  refine Meets.ite_iff.mpr ⟨fun _ => Meets.pure_iff.mpr ⟨h₁, by simp⟩, fun _ => ?_⟩
  refine Meets.ite_iff.mpr ⟨fun _ => ?_, fun _ => hclone h₁⟩
  exact .bind (fat16LoadFatDirectory_frame hI h₁) fun _ k₂ h₂ => hclone h₂

/-- The items found are freed but the last, by recursion on the entries that are left. -/
theorem fat16FindItemLoop_frame {dir : FatDirectory} :
    ∀ (fuel : ℕ) {i : ℕ} {fItem : Option FatItem} {k : Kernel}, I k →
    (∀ i ∈ fItem, FatItem.Made k₀ i) →
    Meets False (fat16FindItemLoop dir name fuel i fItem) k fun item k' =>
      I k' ∧ ∀ i ∈ item, FatItem.Made k₀ i
  | 0, _, _, _, h, hitem => Meets.pure_iff.mpr ⟨h, hitem⟩
  | fuel + 1, _, _, _, h, hitem => by
    refine Meets.bind_iff.mpr (defined_iff.mpr ⟨fun tmp _ => ?_, fun _ => not_false⟩)
    refine Meets.ite_iff.mpr ⟨fun _ => ?_, fun _ => fat16FindItemLoop_frame fuel h hitem⟩
    refine .bind (fat16NewFatItemForDirectoryItem_frame hI h) fun item k₁ ⟨h₁, hmade⟩ => ?_
    exact fat16FindItemLoop_frame fuel h₁ hmade

/-- The search in a directory. -/
theorem fat16FindItemInDirectory_frame {dir : FatDirectory}
    (h : I k) : Meets False (fat16FindItemInDirectory dir name) k fun item k' =>
      I k' ∧ ∀ i ∈ item, FatItem.Made k₀ i :=
  fat16FindItemLoop_frame hI _ h (by simp)

omit hI in
/-- An item that was made is not a directory, so a path of two parts leads nowhere. -/
theorem fat16GetDirectoryEntryLoop_frame (h : I k) (hitem : item.Made k₀) :
    ∀ (parts : List (List UInt8)),
    Meets False (fat16GetDirectoryEntryLoop parts (some item)) k fun item k' =>
      I k' ∧ ∀ i ∈ item, FatItem.Made k₀ i
  | [] => Meets.pure_iff.mpr ⟨h, by simpa using hitem⟩
  | part :: parts => by
    simp only [fat16GetDirectoryEntryLoop, hitem.type, ne_eq, reduceCtorEq, not_false_eq_true,
      if_true]
    exact Meets.pure_iff.mpr ⟨h, by simp⟩

/-- The search along a path. -/
theorem fat16GetDirectoryEntry_frame (h : I k)
    {path : List (List UInt8)} :
    Meets False (fat16GetDirectoryEntry path) k fun item k' =>
      I k' ∧ ∀ i ∈ item, FatItem.Made k₀ i := by
  simp only [fat16GetDirectoryEntry, Meets.bind_iff, fsPrivate_iff]
  refine ⟨fun fatPrivate _ => ?_, fun _ => not_false⟩
  cases path with
  | nil => exact Meets.fault_iff.mpr not_false
  | cons part parts =>
    refine .bind (fat16FindItemInDirectory_frame hI h) fun root k₁ hfound => ?_
    obtain ⟨h₁, hroot⟩ := hfound
    cases root with
    | none => exact Meets.pure_iff.mpr ⟨h₁, by simp⟩
    | some item => exact fat16GetDirectoryEntryLoop_frame h₁ (hroot item rfl) parts

end Items

/-! ## Descriptors -/

/-- The memory of an open file can be freed. -/
structure FatFileDescriptor.Made (k : Kernel) (d : FatFileDescriptor) : Prop where
  self : k.Unowned d.self
  item : d.item.Made k

/-- A descriptor in new memory. -/
structure FileDescriptor.Made (k : Kernel) (d : FileDescriptor) : Prop where
  self : k.Unowned d.self
  privateData : d.privateData.Made k

/-- The global variables with `d` in the slot `i` of the descriptor table. -/
def Kernel.withDescriptor (k : Kernel) (i : ℕ) (d : Option FileDescriptor) : Kernel :=
  { k with fileDescriptors := fun j => if j = i then d else k.fileDescriptors j }

/-- `i` is the first empty slot. -/
structure FirstEmpty (k : Kernel) (i : ℕ) : Prop where
  lt : i < maxFileDescriptors
  empty : k.fileDescriptors i = none
  first : ∀ j < i, k.fileDescriptors j ≠ none

/-- `k` is `k₀` with more allocated and the file descriptor `fd` open. -/
structure OpensFirst (k₀ : Kernel) (fd : Int) (k : Kernel) : Prop where
  heap : k₀.Kept k
  slot : ∃ (i : ℕ) (d : FileDescriptor), fd = i + 1 ∧ FirstEmpty k₀ i ∧ d.index = i + 1 ∧
    d.Made k₀ ∧
    k.globals = k₀.globals.withDescriptor i (some d)

section Descriptors

variable {privateData : FatFileDescriptor} {parts : List (List UInt8)} {mode : FileMode}

/-- The descriptors are among the globals. -/
theorem Kernel.fileDescriptors_of_globals {k' : Kernel} (h : k'.globals = k.globals) :
    k'.fileDescriptors = k.fileDescriptors :=
  show k'.globals.fileDescriptors = k.globals.fileDescriptors by rw [h]

/-- A file is opened in new memory. -/
theorem fat16Open_frame (hI : k₀.Frame I) (h : I k) :
    Meets False (fat16Open parts mode) k fun res k' =>
      I k' ∧ ∀ d, res = .ok d → d.Made k₀ := by
  rw [fat16Open]
  refine Meets.ite_iff.mpr ⟨fun _ => Meets.pure_iff.mpr ⟨h, by simp⟩, fun _ => ?_⟩
  refine Meets.bind_iff.mpr (hI.kzalloc h fun self k₁ h₁ hself => ?_)
  refine Meets.ite_iff.mpr ⟨fun _ => Meets.pure_iff.mpr ⟨h₁, by simp⟩, fun _ => ?_⟩
  refine .bind (fat16GetDirectoryEntry_frame hI h₁) fun item k₂ ⟨h₂, hitem⟩ => ?_
  cases item with
  | none => exact Meets.pure_iff.mpr ⟨h₂, by simp⟩
  | some item =>
    refine Meets.pure_iff.mpr ⟨h₂, fun d hd => ?_⟩
    obtain rfl := Except.ok.inj hd
    exact ⟨hself, hitem item rfl⟩

/-- The search takes the first empty slot, and fails when there is none. -/
theorem fileNewDescriptorLoop_meets (hd : privateData.Made k₀) (h : k₀.Grows k) : ∀ (fuel i : ℕ),
    i + fuel = maxFileDescriptors → (∀ j < i, k₀.fileDescriptors j ≠ none) →
    Meets False (fileNewDescriptorLoop privateData fuel i) k fun res k' =>
      (res = -ENOMEM ∧ k' = k ∧ ∀ j < maxFileDescriptors, k₀.fileDescriptors j ≠ none) ∨
        OpensFirst k₀ res k'
  | 0, i, hi, hfirst => Meets.pure_iff.mpr (.inl ⟨rfl, rfl, by rwa [← hi]⟩)
  | fuel + 1, i, hi, hfirst => by
    have hsame := Kernel.fileDescriptors_of_globals h.globals
    simp only [fileNewDescriptorLoop, Meets.bind_iff, Meets.get_iff, Meets.ite_iff, hsame]
    refine ⟨fun hempty => ?_, fun hfull => ?_⟩
    · refine Kernel.kzalloc_grows h fun self k₁ h₁ hself => ?_
      simp only [Meets.fault_iff, setFileDescriptor_iff, Meets.pure_iff]
      refine ⟨fun _ => not_false, fun _ => .inr ⟨h₁.heap.of_eq rfl rfl, ?_⟩⟩
      refine ⟨i, ⟨self, i + 1, privateData⟩, rfl, ⟨by omega, hempty, hfirst⟩, rfl, ⟨hself, hd⟩, ?_⟩
      rw [← h₁.globals]
      rfl
    · refine fileNewDescriptorLoop_meets hd h fuel (i + 1) (by omega) fun j hj => ?_
      rcases Nat.lt_succ_iff_lt_or_eq.mp hj with hj | rfl
      · exact hfirst j hj
      · exact hfull

end Descriptors

/-! ## `fopen` -/

/-- The path is refused before anything is allocated for it. -/
def PathRefused (path : List UInt8) : Prop :=
  maxPath < path.length ∨ pathparserPathValidFormat path = false

/-- What a call leaves behind on the heap : `k₁` is `k` with the block at `p` taken, and
that block is still taken in `k'`. -/
structure Leaves (k k₁ k' : Kernel) (p : ℕ) : Prop where
  fresh : k.Fresh p
  grows : k.Extends k₁
  globals : k₁.globals = k.globals
  owns : k₁.Owns p 1
  heap : k₁.Kept k'

section Open

variable {path mode : List UInt8}

/-- More may happen to the rest of the heap. -/
theorem Leaves.trans {k₁ k₂ : Kernel} {p : ℕ} (h : Leaves k₀ k₁ k p) (hk : k₁.Kept k₂) :
    Leaves k₀ k₁ k₂ p := { h with heap := hk }

/-- A block that was free is taken, so the tables differ. -/
theorem Leaves.heapTable_ne {k₁ : Kernel} {p : ℕ} (hg : Guarded k₀.table)
    (h : Leaves k₀ k₁ k p) :
    k.heapTable ≠ k₀.heapTable := by
  obtain ⟨b, hb, rfl, hfree⟩ := h.fresh
  intro he
  have hfree' : k.table.IsFree b := by
    show k.heapTable b = blockFree
    rw [he]
    exact hfree
  have hkept := h.heap (h.grows.keeps.guarded hg)
  exact (hkept.owns h.owns).not_fresh ⟨b, hb, rfl, hfree'⟩

/-- The structure of an accepted path stays on the heap. -/
theorem pathparserParse_meets :
    Meets False (pathparserParse path) k fun root k' =>
      (PathRefused path ∧ root = none ∧ k' = k) ∨
        (¬PathRefused path ∧ root.isSome ∧ ∃ k₁ p, Leaves k k₁ k' p ∧ k₁.Grows k') := by
  rw [pathparserParse, Meets.ite_iff]
  refine ⟨fun hlong => Meets.pure_iff.mpr (.inl ⟨.inl hlong, rfl, rfl⟩), fun hlen => ?_⟩
  rw [pathparserGetDriveByPath]
  by_cases hv : pathparserPathValidFormat path = true
  · have hno : ¬PathRefused path := by
      rintro (hlong | hbad)
      · exact hlen hlong
      · rw [hv] at hbad
        cases hbad
    simp only [hv, Bool.not_true, Bool.false_eq_true, if_false, Meets.bind_iff]
    rcases Kernel.kzalloc_one k (show 1 ≤ 8 by decide) (by decide) with ⟨b, hb, hf, -, he⟩ | ⟨he, -⟩
    · refine .of_run_eq he ?_
      have hext : k.Extends (k.allocated b 8) :=
        (Kernel.Extends.refl k).allocated_one (by decide) (by decide) hb hf
      refine Meets.ite_iff.mpr ⟨fun h0 => absurd h0 (blockAddr_pos b), fun _ => ?_⟩
      refine .bind (pathparserParseParts_frame (.grows _) _ (.refl _)) fun parts k' hk' => ?_
      refine Meets.pure_iff.mpr (.inr ⟨hno, rfl, _, blockAddr b, ?_, hk'⟩)
      have howns := Kernel.allocated_owns_one (k := k) (show 1 ≤ 8 by decide) (by decide) hb
      exact ⟨⟨b, hb, rfl, hf⟩, hext, rfl, howns, hk'.heap⟩
    · refine .of_run_eq he (Meets.ite_iff.mpr ⟨fun _ => ?_, fun h0 => absurd rfl h0⟩)
      exact Meets.fault_iff.mpr not_false
  · rw [Bool.not_eq_true] at hv
    simp only [hv, Bool.not_false, if_true]
    exact Meets.pure_iff.mpr (.inl ⟨.inr hv, rfl, rfl⟩)

/-- `fopen` on a refused path does nothing. On any other it leaves the structure of the
path behind, and either fails or opens the first descriptor that is not open. -/
theorem fopen_meets :
    Meets False (fopen path mode) k fun fd k' =>
      (PathRefused path ∧ fd = 0 ∧ k' = k) ∨
        (¬PathRefused path ∧ ∃ k₁ p, Leaves k k₁ k' p ∧
          (fd = 0 ∧ k₁.Grows k' ∨ OpensFirst k₁ fd k')) := by
  refine .bind (pathparserParse_meets) ?_
  rintro root k' (⟨href, rfl, rfl⟩ | ⟨hno, hsome, k₁, p, hleaves, hk'⟩)
  · exact Meets.pure_iff.mpr (.inl ⟨href, rfl, rfl⟩)
  · obtain ⟨root, rfl⟩ := Option.isSome_iff_exists.mp hsome
    -- every way out but the last fails
    have hfail {k₂ : Kernel} (h₂ : k₁.Grows k₂) : Meets False (pure 0) k₂ fun fd k' =>
        (PathRefused path ∧ fd = 0 ∧ k' = k) ∨
          (¬PathRefused path ∧ ∃ k₁ p, Leaves k k₁ k' p ∧
            (fd = 0 ∧ k₁.Grows k' ∨ OpensFirst k₁ fd k')) :=
      Meets.pure_iff.mpr (.inr ⟨hno, k₁, p, hleaves.trans h₂.heap, .inl ⟨rfl, h₂⟩⟩)
    simp only [Meets.ite_iff, Meets.bind_iff, Meets.get_iff]
    refine ⟨fun _ => hfail hk', fun _ => ⟨fun _ => hfail hk', fun _ => ⟨fun _ => hfail hk',
      fun _ => ⟨fun _ => hfail hk', fun _ => ?_⟩⟩⟩⟩
    refine (fat16Open_frame (.grows k₁) hk').mono fun res k₂ h => ?_
    obtain ⟨h₂, hd⟩ := h
    cases res with
    | error e => exact hfail h₂
    | ok d =>
      refine .bind (fileNewDescriptorLoop_meets (hd d rfl) h₂ _ 0 (by simp) (by simp)) ?_
      rintro res k₃ (⟨rfl, rfl, -⟩ | hopen)
      · exact Meets.ite_iff.mpr ⟨fun _ => hfail h₂, fun h => absurd (by decide) h⟩
      · obtain ⟨i, d, rfl, -⟩ := hopen.slot
        refine Meets.ite_iff.mpr ⟨fun h => absurd h (by omega), fun _ => ?_⟩
        refine Meets.pure_iff.mpr (.inr ⟨hno, k₁, p, hleaves.trans hopen.heap, .inr ?_⟩)
        exact hopen

end Open

/-! ## `fclose` -/

section Close

variable {r : Prop} {fd : Int} {d : FileDescriptor} {item : FatItem}

/-- Numbers of the table count from 1. -/
theorem fileGetDescriptor_of_mem {i : ℕ} (hi : i < maxFileDescriptors) :
    fileGetDescriptor (i + 1) k = some (k.fileDescriptors i, k) := by
  have hpos : ¬((i : Int) + 1 ≤ 0 ∨ (maxFileDescriptors : Int) < i + 1) := by omega
  rw [fileGetDescriptor, if_neg hpos]
  simp [run_bind, run_get, run_pure]

/-- The item of an open file is freed, and nothing of `k₀`. -/
theorem fat16FatItemFree_meets (h : k₀.Kept k) (hi : item.Made k₀) :
    Meets r (fat16FatItemFree item) k fun _ k' => k₀.Kept k' ∧ k'.globals = k.globals := by
  have hfree {p : ℕ} (hp : k₀.Unowned p) :
      Meets r (do kfree p; kfree item.self) k fun _ k' => k₀.Kept k' ∧ k'.globals = k.globals :=
    Meets.bind_iff.mpr (kfree_iff.mpr (kfree_iff.mpr ⟨(h.release hp).release hi.self, rfl⟩))
  have hunion := hi.union
  simp only [fat16FatItemFree, hi.type]
  cases hu : item.union with
  | null => exact hfree .null
  | item p bytes =>
    rw [hu] at hunion
    exact hfree hunion
  | directory p dir =>
    rw [hu] at hunion
    exact hfree hunion.1

/-- Closing an open descriptor empties its slot and takes nothing from `k₀`. -/
theorem fclose_meets {i : ℕ} (h : k₀.Kept k) (hi : i < maxFileDescriptors)
    (hd : k.fileDescriptors i = some d) (hindex : d.index = i + 1) (hmade : d.Made k₀) :
    Meets r (fclose (i + 1)) k fun res k' =>
      res = 0 ∧ k₀.Kept k' ∧ k'.globals = k.globals.withDescriptor i none := by
  rw [fclose, Meets.bind_iff]
  refine .of_run_eq (fileGetDescriptor_of_mem hi) ?_
  rw [hd]
  simp only [fat16Close, Meets.bind_iff]
  refine (fat16FatItemFree_meets h hmade.privateData.item).mono fun _ k₁ hfree => ?_
  obtain ⟨h₁, hg₁⟩ := hfree
  simp only [kfree_iff, Meets.pure_iff, fileFreeDescriptor, Meets.bind_iff, setFileDescriptor_iff,
    Meets.ite_iff, not_true_eq_false, false_imp_iff, and_true, forall_const, true_and]
  have hslot : (d.index - 1).toNat = i := by omega
  rw [hslot]
  constructor
  · have h₂ := h₁.release hmade.privateData.self
    refine Kernel.Kept.release ?_ hmade.self
    exact h₂.of_eq rfl rfl
  · rw [← hg₁]
    rfl

/-- Closing a descriptor that is not open fails and changes nothing. -/
theorem fclose_of_not_open
    (hfd : ∀ i : ℕ, i < maxFileDescriptors → fd = i + 1 → k.fileDescriptors i = none) :
    fclose fd k = some (- EIO, k) := by
  have hnone : fileGetDescriptor fd k = some (none, k) := by
    by_cases hin : 1 ≤ fd ∧ fd ≤ maxFileDescriptors
    · obtain ⟨i, rfl⟩ : ∃ i : ℕ, fd = i + 1 := ⟨(fd - 1).toNat, by omega⟩
      rw [fileGetDescriptor_of_mem (by omega), hfd i (by omega) rfl]
    · rw [fileGetDescriptor, if_pos (by omega)]
      rfl
  rw [fclose, run_bind, hnone]
  rfl

end Close

end Hyperion
