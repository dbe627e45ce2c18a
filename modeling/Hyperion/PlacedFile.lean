import Hyperion.ChunkedReads
import Hyperion.ElfImage
import Hyperion.Placement

/-!
# Where the file of a program is read to

`elf_load` of a program in the root directory, with every block that it is answered on the way.
The structure of the file comes first. Then a path of one part takes three blocks that are never
freed (`pathparserParse_row`), the descriptor with its directory item takes four
(`fopen_row`), which are free again when the file is closed (`fclose_row`), and between the two
the bytes of the file are read to the blocks behind these seven (`elfRead_row`). `elfLoad_row`
puts it together : of a row from `y` on the first three blocks are gone and the `n` of the file
from `y + 7` on, and the four between are free.

The programs are files of one cluster that begin with the header of `oneSegment`
(`ProgramFile`), so that the checks of the loader pass whatever follows. Each `_run` lemma goes
through a function of the source once for any answers of the allocator, and the `_row` lemma behind
it puts the blocks of a row in.
-/

namespace Hyperion

open Partial FreeRun ElfBytes

variable {k k' k₁ : Kernel} {n w y z M : ℕ} {S T : ℕ → Prop} {c : UInt8} {e path : List UInt8}
  {fp : FatPrivate} {image : DiskImage}

/-! ## The path and the file -/

/-- A path of one part : the root, the part, its text, and the text of a part that is not there. -/
theorem pathparserParse_run {a₁ a₂ a₃ a₄ : ℕ} {k₂ k₃ k₄ : Kernel} (hlen : path.length ≤ maxPath)
    (hdrive : pathparserGetDriveByPath path = .ok (0, [c])) (hc : c ≠ 47)
    (e₁ : kzalloc 8 k = some (a₁, k₁)) (e₂ : kzalloc maxPath k₁ = some (a₂, k₂))
    (e₃ : kzalloc 8 k₂ = some (a₃, k₃)) (e₄ : kzalloc maxPath k₃ = some (a₄, k₄))
    (h₁ : a₁ ≠ 0) (h₂ : a₂ ≠ 0) (h₃ : a₃ ≠ 0) :
    pathparserParse path k = some (some ⟨0, [[c]]⟩, k₄.release a₄) := by
  obtain ⟨m, hm⟩ : ∃ m, path.length = m + 1 := by
    cases path with
    | nil => cases hdrive
    | cons a path => exact ⟨path.length, rfl⟩
  rw [hm] at hlen
  have htake : [c].takeWhile (· ≠ 47) = [c] := by simp [hc]
  have hdrop : [c].dropWhile (· ≠ 47) = [] := by simp [hc]
  simp only [pathparserParse, if_neg (not_lt.mpr hlen), hdrive, run_bind, e₁, Option.bind_some,
    if_neg h₁, hm, pathparserParseParts, pathparserParsePathPart, pathparserGetPathPart, e₂, h₂,
    htake, hdrop, e₃, if_neg h₃, e₄, run_pure, List.drop_nil, List.takeWhile_nil,
    List.dropWhile_nil, List.cons_ne_nil, if_false, if_true, kfree, run_modify, ne_eq, not_true,
    false_and, not_false_eq_true, true_and]

/-- The path is parsed to the next three blocks. -/
theorem pathparserParse_row (h : k.Row M T y w z) (hz : w + 4 ≤ z) (hlen : path.length ≤ maxPath)
    (hdrive : pathparserGetDriveByPath path = .ok (0, [c])) (hc : c ≠ 47) : ∃ k',
      pathparserParse path k = some (some ⟨0, [[c]]⟩, k') ∧ k'.Row M T y (w + 3) z ∧
        k'.globals = k.globals := by
  obtain ⟨k₁, e₁, h₁, g₁, -, -⟩ := h.takes 8 (w + 1) (by decide) rfl (by omega)
  obtain ⟨k₂, e₂, h₂, g₂, -, -⟩ := h₁.takes maxPath (w + 2) (by decide) rfl (by omega)
  obtain ⟨k₃, e₃, h₃, g₃, -, -⟩ := h₂.takes 8 (w + 3) (by decide) rfl (by omega)
  obtain ⟨k₄, e₄, h₄, g₄, o₄, -⟩ := h₃.takes maxPath (w + 4) (by decide) rfl (by omega)
  have hle := h.le
  rw [show blocksFor maxPath = 1 by decide] at o₄
  exact ⟨k₄.release (blockAddr (w + 3)), pathparserParse_run hlen hdrive hc e₁ e₂ e₃ e₄
    (blockAddr_pos _) (blockAddr_pos _) (blockAddr_pos _),
    h₄.release o₄ (by omega) (by omega) (by omega), by rw [Kernel.release_globals, g₄, g₃, g₂, g₁]⟩

/-- The file of the name `c` in the root directory has the entry `e`. -/
structure FileFound (dir : FatDirectory) (c : UInt8) (e : List UInt8) : Prop where
  found : ∀ k, fat16FindItemInDirectory dir [c] k = fat16NewFatItemForDirectoryItem e k
  plain : itemIsSubdirectory e = false

/-- The descriptor of the file with the entry `e`, in the blocks behind the three of its path. -/
def descriptorAt (w : ℕ) (e : List UInt8) : FileDescriptor where
  self := blockAddr (w + 6)
  index := 1
  privateData := ⟨blockAddr (w + 3), ⟨blockAddr (w + 4), .item (blockAddr (w + 5)) e, .file⟩, 0⟩

/-- The four blocks of the descriptor are owned. -/
structure Kernel.OwnsDescriptor (k : Kernel) (w : ℕ) : Prop where
  privateData : k.Owns (blockAddr (w + 3)) 1
  item : k.Owns (blockAddr (w + 4)) 1
  copy : k.Owns (blockAddr (w + 5)) 1
  self : k.Owns (blockAddr (w + 6)) 1

/-- A file in the root directory is opened : the descriptor's data, the item and the copy of the
entry. -/
theorem fat16Open_run {a₁ a₂ a₃ : ℕ} {k₂ k₃ : Kernel} (hp : k.disk.fsPrivate = some fp)
    (hfile : FileFound fp.rootDirectory c e) (e₁ : kzalloc 8 k = some (a₁, k₁))
    (hg : k₁.globals = k.globals) (e₂ : kzalloc 8 k₁ = some (a₂, k₂))
    (e₃ : kzalloc 32 k₂ = some (a₃, k₃)) (h₁ : a₁ ≠ 0) (h₂ : a₂ ≠ 0) (h₃ : a₃ ≠ 0) :
    fat16Open [[c]] .read k = some (.ok ⟨a₁, ⟨a₂, .item a₃ e, .file⟩, 0⟩, k₃) := by
  have hprivate : fsPrivate k₁ = some (fp, k₁) := by
    have hp' : k₁.disk.fsPrivate = some fp := by
      rw [Kernel.disk_of_globals hg, hp]
    simp only [fsPrivate, run_bind, run_get, Option.bind_some, hp', defined, run_pure]
  simp only [fat16Open, ne_eq, not_true, if_false, run_bind, e₁, Option.bind_some, if_neg h₁,
    fat16GetDirectoryEntry, hprivate, hfile.found, fat16NewFatItemForDirectoryItem, e₂, if_neg h₂,
    hfile.plain, Bool.false_eq_true, fat16CloneDirectoryItem, lt_irrefl, e₃, if_neg h₃, run_pure,
    fat16GetDirectoryEntryLoop]

/-- They are in the next three blocks. -/
theorem fat16Open_row (h : k.Row M T y (w + 3) z) (hz : w + 6 ≤ z)
    (hp : k.disk.fsPrivate = some fp) (hfile : FileFound fp.rootDirectory c e) : ∃ k',
      fat16Open [[c]] .read k = some (.ok (descriptorAt w e).privateData, k') ∧
        k'.Row M T y (w + 6) z ∧ k'.globals = k.globals ∧ k'.Owns (blockAddr (w + 3)) 1 ∧
        k'.Owns (blockAddr (w + 4)) 1 ∧ k'.Owns (blockAddr (w + 5)) 1 := by
  obtain ⟨k₁, e₁, h₁, g₁, o₁, -⟩ := h.takes 8 (w + 4) (by decide) rfl (by omega)
  obtain ⟨k₂, e₂, h₂, g₂, o₂, f₂⟩ := h₁.takes 8 (w + 5) (by decide) rfl (by omega)
  obtain ⟨k₃, e₃, h₃, g₃, o₃, f₃⟩ := h₂.takes 32 (w + 6) (by decide) rfl (by omega)
  exact ⟨k₃, fat16Open_run hp hfile e₁ g₁ e₂ e₃ (blockAddr_pos _) (blockAddr_pos _)
    (blockAddr_pos _), h₃, by rw [g₃, g₂, g₁], f₃ _ _ (f₂ _ _ o₁), f₃ _ _ o₂, o₃⟩

/-- The first descriptor is used. -/
theorem fileNewDescriptor_run {a : ℕ} {d : FatFileDescriptor} (hfd : k.fileDescriptors 0 = none)
    (e₁ : kzalloc 16 k = some (a, k₁)) (h₁ : a ≠ 0) :
    fileNewDescriptor d k = some (1, k₁.withDescriptor 0 (some ⟨a, 1, d⟩)) := by
  obtain ⟨m, hm⟩ : ∃ m, maxFileDescriptors = m + 1 := ⟨511, rfl⟩
  rw [fileNewDescriptor, hm, fileNewDescriptorLoop]
  simp only [run_bind, run_get, Option.bind_some, hfd, if_true, e₁, if_neg h₁]
  rfl

/-- It is in the block behind. -/
theorem fileNewDescriptor_row (h : k.Row M T y (w + 6) z) (hz : w + 7 ≤ z)
    (hfd : k.fileDescriptors 0 = none) : ∃ k',
      fileNewDescriptor (descriptorAt w e).privateData k = some (1, k') ∧
        k'.Row M T y (w + 7) z ∧
        k'.globals = (k.withDescriptor 0 (some (descriptorAt w e))).globals ∧
        k'.Owns (blockAddr (w + 6)) 1 ∧ ∀ a n, k.Owns a n → k'.Owns a n := by
  obtain ⟨k₁, e₁, h₁, g₁, o₁, f₁⟩ := h.takes 16 (w + 7) (by decide) rfl (by omega)
  refine ⟨k₁.withDescriptor 0 (some (descriptorAt w e)),
    fileNewDescriptor_run hfd e₁ (blockAddr_pos _), h₁.of_heapTable rfl, ?_, o₁.of_table rfl,
    fun a n ho => (f₁ a n ho).of_table rfl⟩
  show k₁.globals.withDescriptor 0 _ = k.globals.withDescriptor 0 _
  rw [g₁]

/-- The volume with the file system `fp`, and the first descriptor is not in use. -/
structure Kernel.Mounted (k : Kernel) (image : DiskImage) (fp : FatPrivate) : Prop where
  filesystem : k.disk.filesystem = true
  fsPrivate : k.disk.fsPrivate = some fp
  image : k.image = image
  closed : k.fileDescriptors 0 = none

/-- It is in three global variables of the kernel. -/
theorem Kernel.Mounted.congr (h : k.Mounted image fp) (hdisk : k'.disk = k.disk)
    (himage : k'.image = k.image) (hfiles : k'.fileDescriptors = k.fileDescriptors) :
    k'.Mounted image fp where
  filesystem := by rw [hdisk, h.filesystem]
  fsPrivate := by rw [hdisk, h.fsPrivate]
  image := by rw [himage, h.image]
  closed := by rw [hfiles, h.closed]

/-- Only these count. -/
theorem Kernel.Mounted.of_globals (h : k.Mounted image fp) (hg : k'.globals = k.globals) :
    k'.Mounted image fp :=
  h.congr (disk_of_globals hg) (image_of_globals hg) (fileDescriptors_of_globals hg)

/-- The file is opened, with seven blocks behind one another. -/
theorem fopen_row (h : k.Row M T y w z) (hz : w + 7 ≤ z) (hlen : path.length ≤ maxPath)
    (hdrive : pathparserGetDriveByPath path = .ok (0, [c])) (hc : c ≠ 47)
    (hm : k.Mounted image fp) (hfile : FileFound fp.rootDirectory c e) : ∃ k',
      fopen path [114] k = some (1, k') ∧ k'.Row M T y (w + 7) z ∧
        k'.globals = (k.withDescriptor 0 (some (descriptorAt w e))).globals ∧
        k'.OwnsDescriptor w := by
  obtain ⟨k₁, e₁, h₁, g₁⟩ := pathparserParse_row h (by omega) hlen hdrive hc
  have hm₁ := hm.of_globals g₁
  obtain ⟨k₂, e₂, h₂, g₂, o₃, o₄, o₅⟩ := fat16Open_row h₁ (by omega) hm₁.fsPrivate hfile
  obtain ⟨k₃, e₃, h₃, g₃, o₆, f₃⟩ := fileNewDescriptor_row (e := e) h₂ (by omega)
    (hm₁.of_globals g₂).closed
  refine ⟨k₃, ?_, h₃, ?_, f₃ _ _ o₃, f₃ _ _ o₄, f₃ _ _ o₅, o₆⟩
  · simp only [fopen, run_bind, e₁, Option.bind_some, List.cons_ne_nil, if_false, run_get,
      hm₁.filesystem, Bool.true_eq_false, e₂, e₃, show fileGetModeByString [114] = .read from rfl,
      ne_eq, not_true, reduceCtorEq]
    rfl
  · rw [g₃]
    show k₂.globals.withDescriptor 0 _ = k.globals.withDescriptor 0 _
    rw [g₂, g₁]

/-- The bytes of the file with the entry `e`, which is one cluster at most. -/
def clusterBytes (image : DiskImage) (fp : FatPrivate) (e : List UInt8) : List UInt8 :=
  bytesAt image (startPos fp (fat16GetFirstCluster e) 0) (itemFilesize e)

/-- The file with the entry `e` is in one cluster, and begins like a program. -/
structure ProgramFile (image : DiskImage) (fp : FatPrivate) (e : List UInt8) : Prop where
  le_size : 85 ≤ itemFilesize e
  size_le : itemFilesize e ≤ clusterSize fp
  cluster_le : clusterSize fp ≤ 131072
  readable : Readable (startPos fp (fat16GetFirstCluster e) 0)
  header : ∀ j < 85, (clusterBytes image fp e).getD j 0 = (oneSegment 84 0).getD j 0

/-- The first descriptor leads to the file `d`. -/
theorem fileGetDescriptor_one {d : FileDescriptor} (hd : k.fileDescriptors 0 = some d) :
    fileGetDescriptor 1 k = some (some d, k) := by
  rw [fileGetDescriptor, if_neg (by decide)]
  simp only [run_bind, run_get, Option.bind_some, run_pure]
  rw [show ((1 : Int) - 1).toNat = 0 from rfl, hd]

/-- Only the bytes change. -/
theorem Kernel.withBytes_kept (k : Kernel) (a : ℕ) (bs : List UInt8) :
    (k.withBytes a bs).heapTable = k.heapTable ∧ (k.withBytes a bs).table = k.table ∧
      (k.withBytes a bs).fileDescriptors = k.fileDescriptors := ⟨rfl, rfl, rfl⟩

/-- The file is read as one item from its first cluster. -/
theorem fread_row {image : DiskImage} {out : ℕ} (hm : k.disk.fsPrivate = some fp)
    (hi : k.image = image) (hd : k.fileDescriptors 0 = some (descriptorAt w e))
    (hfile : ProgramFile image fp e) (hout : 0 < out) (hfits : out + itemFilesize e ≤ 4294967296) :
    fread out (itemFilesize e) 1 1 k = some (1, k.withBytes out (clusterBytes image fp e)) := by
  have hsize := hfile.le_size
  have hle := hfile.size_le
  have hcluster := hfile.cluster_le
  have h0 : wrapInt 0 = 0 := by decide
  have hserved : ReadServed fp (fat16GetFirstCluster e) 0 (itemFilesize e) 1 := by
    intro i hi m hm
    obtain rfl : i = 0 := by omega
    obtain rfl : m = 0 := by
      rcases hm with rfl | hm
      · rfl
      · by_contra hne
        have := Nat.le_mul_of_pos_left (clusterSize fp) (Nat.pos_of_ne_zero hne)
        omega
    simp only [Nat.cast_zero, zero_mul, add_zero, h0]
    exact ⟨by omega, hfile.readable⟩
  have hloop : fat16ReadLoop e (itemFilesize e) 1 0 out k = some (0, k.withBytes out
      (readBytes k.image fp (fat16GetFirstCluster e) 0 (itemFilesize e) 1)) :=
    fat16ReadLoop_served (by omega) (by omega)
      (asSigned_of_lt (show itemFilesize e < 2147483648 by omega)) 1 0 out hm ⟨hout, by omega⟩ h0
      hserved
  have hbytes : readBytes k.image fp (fat16GetFirstCluster e) 0 (itemFilesize e) 1 =
      clusterBytes image fp e := by
    rw [readBytes, readBytes, List.append_nil, itemBytes_single h0 hle, hi, clusterBytes]
  rw [hbytes] at hloop
  have hread : fat16Read (descriptorAt w e).privateData (itemFilesize e) 1 out k =
      some (1, k.withBytes out (clusterBytes image fp e)) := by
    rw [fat16Read, run_bind, show (descriptorAt w e).privateData.item.entry = pure e from rfl,
      run_pure, Option.bind_some, run_bind,
      show asSigned (descriptorAt w e).privateData.pos = 0 from rfl, hloop, Option.bind_some,
      if_neg (lt_irrefl 0)]
    rfl
  rw [fread, if_neg (by omega), run_bind, fileGetDescriptor_one hd, Option.bind_some]
  exact hread

/-- A descriptor is none of the heap's. -/
theorem Kernel.FreeBelow.withDescriptor (h : k.FreeBelow M S) (i : ℕ) (d : Option FileDescriptor) :
    (k.withDescriptor i d).FreeBelow M S := h.of_heapTable rfl

/-- Nor does it own a block. -/
theorem Kernel.Owns.withDescriptor {a : ℕ} (h : k.Owns a n) (i : ℕ) (d : Option FileDescriptor) :
    (k.withDescriptor i d).Owns a n := h.of_table rfl

/-- The state after the file has been closed. -/
def Kernel.closedAt (k : Kernel) (w : ℕ) : Kernel :=
  ((((k.release (blockAddr (w + 5))).release (blockAddr (w + 4))).release
    (blockAddr (w + 3))).withDescriptor 0 none).release (blockAddr (w + 6))

/-- What was allocated for the descriptor is freed. -/
theorem fclose_row (hd : k.fileDescriptors 0 = some (descriptorAt w e)) :
    fclose 1 k = some (0, k.closedAt w) := by
  rw [fclose, run_bind, fileGetDescriptor_one hd, Option.bind_some]
  rfl

/-- The other allocations are still there when the file has been closed. -/
theorem Kernel.OwnsDescriptor.closed_owns (h : k.OwnsDescriptor w) {a : ℕ}
    (ho : k.Owns (blockAddr a) n) (ha : a < w + 3 ∨ w + 7 ≤ a) :
    (k.closedAt w).Owns (blockAddr a) n := by
  have i₁ := h.item.release_other h.copy (blockAddr_ne (by omega))
  have p₁ := h.privateData.release_other h.copy (blockAddr_ne (by omega))
  have s₁ := h.self.release_other h.copy (blockAddr_ne (by omega))
  have o₁ := ho.release_other h.copy (blockAddr_ne (by omega))
  have p₂ := p₁.release_other i₁ (blockAddr_ne (by omega))
  have s₂ := s₁.release_other i₁ (blockAddr_ne (by omega))
  have o₂ := o₁.release_other i₁ (blockAddr_ne (by omega))
  have s₃ := s₂.release_other p₂ (blockAddr_ne (by omega))
  have o₃ := o₂.release_other p₂ (blockAddr_ne (by omega))
  exact (o₃.withDescriptor 0 none).release_other (s₃.withDescriptor 0 none)
    (blockAddr_ne (by omega))

/-- Its four blocks are free when it has been closed. -/
theorem Kernel.OwnsDescriptor.closed (h : k.OwnsDescriptor w) (hS : k.FreeBelow M S) :
    (k.closedAt w).FreeBelow M fun i => S i ∨ w + 3 ≤ i ∧ i < w + 7 := by
  have h₁ := hS.release h.copy
  have i₁ := h.item.release_other h.copy (blockAddr_ne (by omega))
  have p₁ := h.privateData.release_other h.copy (blockAddr_ne (by omega))
  have s₁ := h.self.release_other h.copy (blockAddr_ne (by omega))
  have h₂ := h₁.release i₁
  have p₂ := p₁.release_other i₁ (blockAddr_ne (by omega))
  have s₂ := s₁.release_other i₁ (blockAddr_ne (by omega))
  have h₃ := h₂.release p₂
  have s₃ := s₂.release_other p₂ (blockAddr_ne (by omega))
  have h₄ := (h₃.withDescriptor 0 none).release (s₃.withDescriptor 0 none)
  refine h₄.congr fun i _ => ?_
  constructor
  · rintro ((((hi | hi) | hi) | hi) | hi)
    · exact .inl hi
    all_goals exact .inr (by omega)
  · rintro (hi | hi)
    · exact .inl (.inl (.inl (.inl hi)))
    · obtain rfl | rfl | rfl | rfl : i = w + 3 ∨ i = w + 4 ∨ i = w + 5 ∨ i = w + 6 := by omega
      · exact .inl (.inr (by omega))
      · exact .inl (.inl (.inr (by omega)))
      · exact .inl (.inl (.inl (.inr (by omega))))
      · exact .inr (by omega)

/-- The file in the volume can be opened by `path` and is a program. -/
structure ProgramAt (image : DiskImage) (fp : FatPrivate) (path : List UInt8) (c : UInt8)
    (e : List UInt8) : Prop extends FileFound fp.rootDirectory c e, ProgramFile image fp e where
  length : path.length ≤ maxPath
  drive : pathparserGetDriveByPath path = .ok (0, [c])
  name : c ≠ 47

/-- The header fields are in the first 85 bytes. -/
theorem headerFields_oneSegment {d : ℕ → UInt8} (h : ∀ j < 85, d j = (oneSegment 84 0).getD j 0) :
    headerFields d = oneSegmentFields 84 0 := by
  have hoff : phoff d = 52 := by
    rw [phoff, word32_agree h (by decide)]
    decide
  have hphdr : phdr d 0 = 52 := by
    rw [phdr, hoff, Nat.mul_zero]
  have hfield {a : ℕ} (ha : a + 4 ≤ 85) : word32 d a =
      word32 (fun j => (oneSegment 84 0).getD j 0) a := word32_agree h ha
  have hck : Checked d := by
    refine ⟨fun i hi => ?_, ?_, ?_, by rw [hoff]; decide⟩
    · rw [h i (by omega)]
      revert i
      decide
    · show d 4 = 0 ∨ d 4 = 1
      rw [h 4 (by decide)]
      decide
    · show d 5 = 0 ∨ d 5 = 1
      rw [h 5 (by decide)]
      decide
  have hnum : phnum d = 1 := by
    rw [phnum, word16_agree h (by decide)]
    decide
  unfold headerFields oneSegmentFields
  rw [HeaderFields.mk.injEq]
  refine ⟨decide_eq_true hck, hoff, hnum, ?_, ?_, ?_, ?_, ?_, ?_⟩
  · rw [ptype, hphdr, hfield (by decide)]
    decide
  · rw [poffset, hphdr, hfield (by decide)]
    decide
  · rw [pvaddr, hphdr, hfield (by decide)]
    decide
  · rw [pfilesz, hphdr, hfield (by decide)]
    decide
  · rw [pmemsz, hphdr, hfield (by decide)]
    decide
  · rw [h 84 (by decide)]
    decide

/-- The size of the file is in its entry. -/
theorem fstat_one (hd : k.fileDescriptors 0 = some (descriptorAt w e)) :
    fstat 1 k = some ((0, ⟨itemAttributes e &&& 0x01 ≠ 0, itemFilesize e⟩), k) := by
  rw [fstat, run_bind, fileGetDescriptor_one hd, Option.bind_some]
  rfl

/-- As many bytes are read as the size of the file says. -/
theorem elfRead_run {a s : ℕ} {k₂ : Kernel} {stat : FileStat} (hs : s ≠ 0) (ha : a ≠ 0)
    (hstat : fstat 1 k = some ((0, stat), k)) (hrun : kzalloc stat.filesize k = some (a, k₁))
    (hread : fread a stat.filesize 1 1 k₁ = some (1, k₂)) :
    elfRead s 1 k = some (.ok (a, stat.filesize), k₂) := by
  rw [elfRead, run_bind, hstat, Option.bind_some]
  simp only [lt_irrefl, if_false, if_neg hs, run_bind, hrun, Option.bind_some, hread, if_neg ha]
  rw [if_neg (by decide), run_pure]

/-- The file is read to the blocks behind those of its path and its descriptor. -/
theorem elfRead_row {s : ℕ} (h : k.Row M T y (w + 7) z)
    (hz : w + 7 + blocksFor (itemFilesize e) ≤ z) (hm : k.disk.fsPrivate = some fp)
    (hi : k.image = image) (hd : k.fileDescriptors 0 = some (descriptorAt w e))
    (hfile : ProgramFile image fp e) (hs : s ≠ 0) :
    ∃ k', elfRead s 1 k = some (.ok (blockAddr (w + 7), itemFilesize e), k') ∧
      k'.Row M T y (w + 7 + blocksFor (itemFilesize e)) z ∧
      k'.Owns (blockAddr (w + 7)) (blocksFor (itemFilesize e)) ∧
      (∀ a n, k.Owns a n → k'.Owns a n) ∧ k'.fileDescriptors = k.fileDescriptors ∧
      ∀ j < 85, bytesFrom k'.mem (blockAddr (w + 7)) j = (oneSegment 84 0).getD j 0 := by
  have hsize := hfile.le_size
  obtain ⟨ha, -, -, -⟩ := h.kzalloc (itemFilesize e) _ (by omega) rfl hz
  have hfits := ha.fits
  obtain ⟨k₁, hrun, hrow, hglob, hown, hkeep⟩ := h.takes (itemFilesize e) _ (by omega) rfl hz
  have hdesc := Kernel.fileDescriptors_of_globals hglob
  obtain ⟨hheap, htable, hkept⟩ := Kernel.withBytes_kept k₁ (blockAddr (w + 7))
    (clusterBytes image fp e)
  have hread := fread_row (w := w) (by rw [Kernel.disk_of_globals hglob, hm])
    (by rw [Kernel.image_of_globals hglob, hi]) (by rw [hdesc, hd]) hfile
    (Nat.pos_of_ne_zero (blockAddr_pos (w + 7))) hfits
  refine ⟨_, elfRead_run hs (blockAddr_pos _) (fstat_one hd) hrun hread, hrow.of_heapTable hheap,
    hown.of_table htable, fun a n ho => (hkeep a n ho).of_table htable, hkept.trans hdesc,
    fun j hj => ?_⟩
  have hlen : (clusterBytes image fp e).length = itemFilesize e := length_bytesAt _ _ _
  have hin : blockAddr (w + 7) ≤ blockAddr (w + 7) + j ∧
      blockAddr (w + 7) + j < blockAddr (w + 7) + (clusterBytes image fp e).length := by omega
  rw [← hfile.header j hj, bytesFrom, Kernel.withBytes_mem, if_pos hin, Nat.add_sub_cancel_left]

/-- A program is read to the blocks behind those of its path and its descriptor, and what was
allocated for the descriptor is free again. -/
theorem elfLoad_row {image : DiskImage} {path : List UInt8} {s : ℕ}
    (hself : kzalloc 132 k = some (blockAddr s, k₁)) (hk₁ : k₁.globals = k.globals)
    (h : k₁.Row M T y y z) (hz : y + 7 + blocksFor (itemFilesize e) ≤ z)
    (hm : k.Mounted image fp) (hfile : ProgramAt image fp path c e) :
    ∃ r file k', elfLoad path k = some (r, k') ∧ r.res = 0 ∧ r.file = some file ∧
      file.self = blockAddr s ∧ file.elfMemory = blockAddr (y + 7) ∧
      (k'.FreeBelow M fun i => T i ∧ ¬(y ≤ i ∧ i < y + 3) ∧
        ¬(y + 7 ≤ i ∧ i < y + 7 + blocksFor (itemFilesize e))) ∧
      k'.Owns (blockAddr (y + 7)) (blocksFor (itemFilesize e)) ∧
      ∀ j < 85, bytesFrom k'.mem (blockAddr (y + 7)) j = (oneSegment 84 0).getD j 0 := by
  have hsize := hfile.le_size
  have hm₁ := hm.of_globals hk₁
  obtain ⟨k₂, e₂, h₂, hglob₂, hown₂⟩ := fopen_row h (by omega) hfile.length hfile.drive hfile.name
    hm₁ hfile.toFileFound
  have hdisk₂ : k₂.disk = k₁.disk := (Kernel.disk_of_globals hglob₂).trans rfl
  have himage₂ : k₂.image = k₁.image := (Kernel.image_of_globals hglob₂).trans rfl
  have hd₂ : k₂.fileDescriptors 0 = some (descriptorAt y e) := by
    rw [Kernel.fileDescriptors_of_globals hglob₂]
    rfl
  obtain ⟨k₃, e₃, h₃, hbuf₃, hkeep, hdesc₃, hbytes⟩ := elfRead_row h₂ hz
    (by rw [hdisk₂, hm₁.fsPrivate]) (himage₂.trans hm₁.image) hd₂ hfile.toProgramFile
    (blockAddr_pos s)
  have hown₃ : k₃.OwnsDescriptor y := ⟨hkeep _ _ hown₂.privateData, hkeep _ _ hown₂.item,
    hkeep _ _ hown₂.copy, hkeep _ _ hown₂.self⟩
  have hd₃ : k₃.fileDescriptors 0 = some (descriptorAt y e) := by rw [hdesc₃, hd₂]
  set loaded := elfProcessLoaded ⟨blockAddr s, blockAddr (y + 7), 0, 0, 0, 0⟩ with hloaded
  have hck := (OneSegment.of_fields (headerFields_oneSegment hbytes)).1
  have hsame : loaded.Ensures _ := elfProcessLoaded_same
  obtain ⟨hle, hs, hmem⟩ := hsame k₃.mem
  have hres : (loaded.value k₃.mem).1 = 0 := le_antisymm hle (elfProcessLoaded_value.mpr hck)
  have hclosed := fclose_row hd₃
  have hmemory := fclose_mem _ _ _ hclosed
  refine ⟨⟨0, some (loaded.value k₃.mem).2, some ⟨blockAddr (y + 7), itemFilesize e,
    loaded.reads k₃.mem⟩⟩, _, _, ?_, rfl, rfl, hs, hmem,
    (hown₃.closed h₃.free).congr fun i hi => ?_, hown₃.closed_owns hbuf₃ (by omega),
    fun j hj => by rw [hmemory, hbytes j hj]⟩
  · simp only [elfLoad, run_bind, hself, Option.bind_some, e₂, elfLoadOpened, e₃, run_get,
      if_neg (show ¬(1 : Int) ≤ 0 by decide), hres, if_neg (lt_irrefl (0 : Int)), run_pure, hclosed,
      ← hloaded]
  · constructor
    · rintro (⟨hT, hno⟩ | hin)
      · exact ⟨hT, by omega, by omega⟩
      · exact ⟨h₃.run i (by omega) (by omega), by omega, by omega⟩
    · rintro ⟨hT, hno, hno'⟩
      by_cases hin : y + 3 ≤ i ∧ i < y + 7
      · exact .inr hin
      · exact .inl ⟨hT, by omega⟩

end Hyperion
