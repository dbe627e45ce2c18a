import Hyperion.Fat16Spec
import Hyperion.Lib.Trace

/-!
# An open file as a cursor

The bytes that a FAT16 volume keeps for a directory entry, the cursor that a file
descriptor stands for, and runs of `fseek` and `fread` on one descriptor. No call of
`fread` moves the position, so a run delivers what the cursor promises exactly when
every `fread` in it is refused (`file_runs_deliver_iff_refused`).

`Cursor` is what an open file is for, some bytes and a position among them, of which a read takes
the next ones and moves behind them. The bytes of a file are those of the clusters of its chain, as
the allocation table links them (`fileCluster`, `fileByte`), with none of the ways in which the
code gets there. `Kernel.cursor` is the cursor of a descriptor, and `DoneOnCursor` what a call with
its result should have done to it and to the memory of the caller.

`fseek_meets` and `fread_meets` are the two calls. `fread` changes memory and nothing else, and a
read of at least one byte that succeeds would have had to move the position. On the small volume a
byte is read and the position is where it was (`file_runs_not_all_deliver`).
-/

namespace Hyperion

open Partial

/-! ## Cursors -/

/-- The bytes of a file and a position among them. -/
structure Cursor where
  bytes : List UInt8
  pos : ℕ

/-- The next `n` bytes, which must all be there, and the cursor behind them. -/
def Cursor.read (c : Cursor) (n : ℕ) : Option (List UInt8 × Cursor) :=
  if c.pos + n ≤ c.bytes.length then
    some ((c.bytes.drop c.pos).take n, { c with pos := c.pos + n })
  else none

/-- What a successful seek makes of `c`. A position is a 32-bit word. -/
def Cursor.seek (c : Cursor) (offset : ℕ) : FileSeekMode → Option Cursor
  | .seekSet => some { c with pos := offset }
  | .seekCur => some { c with pos := (c.pos + offset) % 4294967296 }
  | .seekEnd | .other => none

theorem Cursor.read_pos {c c' : Cursor} {n : ℕ} {data : List UInt8}
    (h : c.read n = some (data, c')) : c'.pos = c.pos + n := by
  unfold Cursor.read at h
  split at h
  · cases h
    rfl
  · cases h

/-! ## The bytes of a file -/

section Volume

variable (image : DiskImage) (p : FatPrivate)

/-- The entry of the file allocation table for a cluster : the cluster that follows it. -/
def clusterAfter (cluster : ℕ) : ℕ :=
  let pos := p.header.reservedSectors * sectorSize + cluster * 2
  (diskByte image pos).toNat + (diskByte image (pos + 1)).toNat * 256

/-- The cluster number `n` of the file, from 0 on. -/
def fileCluster (entry : List UInt8) (n : ℕ) : ℕ :=
  (clusterAfter image p)^[n] (itemLow16BitsFirstCluster entry)

/-- The byte `i` of the file. -/
def fileByte (entry : List UInt8) (i : ℕ) : UInt8 :=
  let size := p.header.sectorsPerCluster * sectorSize
  let sector := p.rootDirectory.endingSectorPos.toNat +
    (fileCluster image p entry (i / size) - 2) * p.header.sectorsPerCluster
  diskByte image (sector * sectorSize + i % size)

def fileBytes (entry : List UInt8) : List UInt8 :=
  (List.range (itemFilesize entry)).map (fileByte image p entry)

/-- The entry is that of a regular file whose clusters are data clusters and are as many
as its size needs, the last one marked as such. -/
structure WellFormedFile (entry : List UInt8) : Prop where
  regular : itemIsSubdirectory entry = false
  high : itemHigh16BitsFirstCluster entry = 0
  sectors : 0 < p.header.sectorsPerCluster
  data : ∀ n, n * (p.header.sectorsPerCluster * sectorSize) < itemFilesize entry →
    2 ≤ fileCluster image p entry n ∧ fileCluster image p entry n < 0xFFF0
  apart : ∀ m n, m < n → n * (p.header.sectorsPerCluster * sectorSize) < itemFilesize entry →
    fileCluster image p entry m ≠ fileCluster image p entry n
  last : ∀ n, itemFilesize entry ≤ n * (p.header.sectorsPerCluster * sectorSize) →
    (n - 1) * (p.header.sectorsPerCluster * sectorSize) < itemFilesize entry →
    0xFFF8 ≤ fileCluster image p entry n

end Volume

/-! ## Runs on one descriptor -/

/-- The descriptor behind `fd`. -/
def Kernel.openFile (k : Kernel) (fd : Int) : Option FileDescriptor :=
  if fd ≤ 0 ∨ (maxFileDescriptors : Int) < fd then none else k.fileDescriptors (fd - 1).toNat

/-- The cursor that an open file stands for. -/
def Kernel.cursor (k : Kernel) (fd : Int) : Option Cursor := do
  let desc ← k.openFile fd
  let p ← k.disk.fsPrivate
  match desc.privateData.item.union with
  | .item _ entry => some ⟨fileBytes k.image p entry, desc.privateData.pos⟩
  | _ => none

/-- A call on a descriptor. -/
inductive FileCall
  | fseek (offset : Int) (whence : FileSeekMode)
  | fread (ptr size nmemb : ℕ)

/-- A call on `fd` and its result. The arguments of `fread` are 32-bit words. -/
inductive FileStep (fd : Int) : Kernel → FileCall × Int → Kernel → Prop
  | fseek {k k' : Kernel} {offset : Int} {whence : FileSeekMode} {res : Int} :
      Hyperion.fseek fd offset whence k = some (res, k') →
      FileStep fd k (.fseek offset whence, res) k'
  | fread {k k' : Kernel} {ptr size nmemb : ℕ} {res : Int} :
      ptr < 4294967296 → size < 4294967296 → nmemb < 4294967296 →
      Hyperion.fread ptr size nmemb fd k = some (res, k') →
      FileStep fd k (.fread ptr size nmemb, res) k'

/-- The call did to the cursor, and to the memory of the caller, what its result says. -/
def DoneOnCursor (fd : Int) (k : Kernel) : FileCall × Int → Kernel → Prop
  | (.fseek offset whence, res), k' =>
    if res = 0 then
      ∀ c, k.cursor fd = some c →
        asUnsigned offset < c.bytes.length ∧ k'.cursor fd = c.seek (asUnsigned offset) whence
    else k'.cursor fd = k.cursor fd
  | (.fread ptr size nmemb, res), k' =>
    0 ≤ res → ∃ c data c', k.cursor fd = some c ∧ c.read (size * nmemb) = some (data, c') ∧
      (∀ i < size * nmemb, data[i]? = some (k'.mem ((ptr + i) % 4294967296))) ∧
      k'.cursor fd = some c'

/-- `fread` is called with arguments that it refuses, or for an item that it cannot read. -/
def Refused (fd : Int) (k : Kernel) : FileCall → Prop
  | .fseek _ _ => True
  | .fread _ size nmemb =>
    size = 0 ∨ nmemb = 0 ∨ 2147483648 ≤ nmemb ∨ ∀ desc, k.openFile fd = some desc →
      ∀ p, k.disk.fsPrivate = some p → ∃ i < nmemb, PassesFirstCluster (sizeOfClusterBytes p)
        (wrapInt (asSigned desc.privateData.pos + i * size)) (asSigned size)

/-- `k` is what is left when the volume of `image` has been mounted and `path` opened. -/
def Opened (image : DiskImage) (path : List UInt8) (fd : Int) (k : Kernel) : Prop :=
  ∃ k₀, diskSearchAndInit { Kernel.empty with image := image } = some ((), k₀) ∧
    fopen path [114] k₀ = some (fd, k) ∧ 0 < fd

/-- A well-formed regular file is open behind `fd`. -/
def Kernel.OpenWellFormed (k : Kernel) (fd : Int) : Prop :=
  ∃ desc p a entry, k.openFile fd = some desc ∧ k.disk.fsPrivate = some p ∧
    desc.privateData.item.union = .item a entry ∧ WellFormedFile k.image p entry

/-! ## What the calls compute -/

theorem fileGetDescriptor_eq (fd : Int) (k : Kernel) :
    fileGetDescriptor fd k = some (k.openFile fd, k) := by
  unfold fileGetDescriptor Kernel.openFile
  split_ifs <;> rfl

/-- The loop changes nothing but memory, and fails at the first piece that is not there. -/
theorem fat16ReadLoop_meets {p : FatPrivate} {entry : List UInt8} {size : ℕ} :
    ∀ {fuel : ℕ} {offset : Int} {outPtr : ℕ} {k : Kernel},
    k.disk.fsPrivate = some p → wrapInt offset = offset →
    Meets False (fat16ReadLoop entry size fuel offset outPtr) k fun res k' =>
      (∃ m, k' = { k with mem := m }) ∧
        (res < 0 ↔ ∃ i < fuel, PassesFirstCluster (sizeOfClusterBytes p)
          (wrapInt (offset + i * size)) (asSigned size))
  | 0, offset, outPtr, k, _, _ => by
    rw [fat16ReadLoop, Meets.pure_iff]
    exact ⟨⟨k.mem, rfl⟩, by simp⟩
  | fuel + 1, offset, outPtr, k, hp, ho => by
    simp only [fat16ReadLoop, Meets.bind_iff, fsPrivate_iff, hp, Option.some.injEq, Meets.get_iff,
      defined_iff, storeBytes_iff, Meets.ite_iff, Meets.pure_iff]
    refine ⟨?_, by simp⟩
    rintro _ rfl
    refine ⟨fun r hr => ?_, fun _ h => h⟩
    obtain ⟨res, bytes⟩ := r
    have hres := fat16ReadInternalFromStream_neg (Int.natCast_nonneg _) ho hr
    refine ⟨fun _ h => h, fun _ => ⟨fun hneg => ⟨⟨_, rfl⟩, iff_of_true hneg ?_⟩, fun hpos => ?_⟩⟩
    · exact ⟨0, by omega, by simpa [ho] using hres.mp hneg⟩
    · refine (fat16ReadLoop_meets (k := k.withBytes outPtr bytes) hp (wrapInt_wrapInt _)).mono ?_
      rintro res' k' ⟨⟨m, hm⟩, hlater⟩
      refine ⟨⟨m, hm⟩, hlater.trans ?_⟩
      have hw := wrapInt_wrapInt_step offset size
      constructor
      · rintro ⟨i, hi, hpass⟩
        exact ⟨i + 1, by omega, by rwa [← hw]⟩
      · rintro ⟨i, hi, hpass⟩
        cases i with
        | zero =>
          rw [Int.natCast_zero, zero_mul, add_zero, ho] at hpass
          exact absurd (hres.mpr hpass) hpos
        | succ i => exact ⟨i, by omega, by rwa [hw]⟩

/-- Without a mounted file system the loop has no result. -/
theorem fat16ReadLoop_unmounted {entry : List UInt8} {size fuel outPtr : ℕ} {offset : Int}
    {k : Kernel} (hp : k.disk.fsPrivate = none) (hf : fuel ≠ 0) (Q : Int → Kernel → Prop) :
    Meets False (fat16ReadLoop entry size fuel offset outPtr) k Q := by
  cases fuel with
  | zero => exact absurd rfl hf
  | succ fuel => simp [fat16ReadLoop, hp]

/-- `fread` changes nothing but memory, and fails exactly when it is refused. -/
theorem fread_meets {k : Kernel} {fd : Int} {ptr size nmemb : ℕ} (hn : nmemb < 4294967296) :
    Meets False (fread ptr size nmemb fd) k fun res k' =>
      (∃ m, k' = { k with mem := m }) ∧ (res < 0 ↔ Refused fd k (.fread ptr size nmemb)) := by
  unfold fread
  rw [Meets.ite_iff]
  refine ⟨fun harg => ?_, fun harg => ?_⟩
  · refine Meets.pure_iff.mpr ⟨⟨k.mem, rfl⟩, iff_of_true (by decide) ?_⟩
    rcases harg with h | h | h
    · exact .inl h
    · exact .inr (.inl h)
    · refine .inr (.inr (.inr fun desc hd => ?_))
      rw [Kernel.openFile, if_pos (.inl (by omega))] at hd
      cases hd
  · refine Meets.bind_iff.mpr (Meets.of_run_eq (fileGetDescriptor_eq fd k) ?_)
    cases hd : k.openFile fd with
    | none =>
      refine Meets.pure_iff.mpr ⟨⟨k.mem, rfl⟩, iff_of_true (by decide) ?_⟩
      exact .inr (.inr (.inr fun desc hd' => by simp [hd] at hd'))
    | some desc =>
      cases hu : desc.privateData.item.union with
      | null => simp [fat16Read, FatItem.entry, hu]
      | directory a d => simp [fat16Read, FatItem.entry, hu]
      | item a entry =>
        simp only [fat16Read, FatItem.entry, hu, Meets.bind_iff, Meets.pure_iff]
        cases hp : k.disk.fsPrivate with
        | none => exact fat16ReadLoop_unmounted hp (by omega) _
        | some p =>
          refine (fat16ReadLoop_meets hp (wrapInt_asSigned _)).mono fun res k' h => ?_
          obtain ⟨hk, hres⟩ := h
          simp only [Meets.ite_iff, Meets.pure_iff]
          have hR : Refused fd k (.fread ptr size nmemb) ↔ 2147483648 ≤ nmemb ∨ res < 0 := by
            simp only [Refused, hd, hp, hres, Option.some.injEq, forall_eq']
            constructor
            · rintro (h | h | h)
              · exact absurd (.inl h) harg
              · exact absurd (.inr (.inl h)) harg
              · exact h
            · exact fun h => .inr (.inr h)
          refine ⟨fun hneg => ⟨hk, iff_of_true hneg (hR.mpr (.inr hneg))⟩, fun hpos => ⟨hk, ?_⟩⟩
          rw [hR]
          unfold asSigned
          omega

/-- The state in which `desc` is the descriptor behind `fd`. -/
def Kernel.withFile (k : Kernel) (fd : Int) (desc : FileDescriptor) : Kernel := { k with
  fileDescriptors := fun j => if j = (fd - 1).toNat then some desc else k.fileDescriptors j }

theorem Kernel.openFile_withFile {k : Kernel} {fd : Int} {desc desc' : FileDescriptor}
    (hd : k.openFile fd = some desc) : (k.withFile fd desc').openFile fd = some desc' := by
  unfold Kernel.openFile at hd ⊢
  split_ifs at hd ⊢
  simp [Kernel.withFile]

theorem Kernel.cursor_withFile {k : Kernel} {fd : Int} {desc : FileDescriptor}
    (hd : k.openFile fd = some desc) : (k.withFile fd desc).cursor fd = k.cursor fd := by
  unfold Kernel.cursor
  rw [Kernel.openFile_withFile hd, hd]
  rfl

/-- The cursor after only the position has changed. -/
theorem Kernel.cursor_withPos {k : Kernel} {fd : Int} {desc : FileDescriptor} {c : Cursor}
    (hd : k.openFile fd = some desc) (hc : k.cursor fd = some c) (pos : ℕ) :
    (k.withFile fd { desc with privateData := { desc.privateData with pos := pos } }).cursor fd =
      some { c with pos := pos } := by
  unfold Kernel.cursor at hc ⊢
  rw [Kernel.openFile_withFile hd]
  rw [hd] at hc
  cases hp : k.disk.fsPrivate with
  | none => simp [hp] at hc
  | some p =>
    cases hu : desc.privateData.item.union with
    | null => simp [hp, hu] at hc
    | directory a d => simp [hp, hu] at hc
    | item a entry =>
      simp only [hp, hu, Option.bind_eq_bind, Option.bind_some, Option.some.injEq] at hc
      simp [Kernel.withFile, hp, hu, ← hc]

/-- The cursor runs over as many bytes as the entry says, from the descriptor's position. -/
theorem Kernel.cursor_eq_some {k : Kernel} {fd : Int} {desc : FileDescriptor} {c : Cursor}
    {a : ℕ} {entry : List UInt8} (hd : k.openFile fd = some desc)
    (hu : desc.privateData.item.union = .item a entry) (hc : k.cursor fd = some c) :
    c.bytes.length = itemFilesize entry ∧ c.pos = desc.privateData.pos := by
  unfold Kernel.cursor at hc
  rw [hd] at hc
  cases hp : k.disk.fsPrivate with
  | none => simp [hp] at hc
  | some p =>
    simp only [hp, hu, Option.bind_eq_bind, Option.bind_some, Option.some.injEq] at hc
    simp [← hc, fileBytes]

/-- `fseek` does to the cursor what it says. -/
theorem fseek_meets {k : Kernel} {fd offset : Int} {whence : FileSeekMode} :
    Meets False (fseek fd offset whence) k fun res k' =>
      DoneOnCursor fd k (.fseek offset whence, res) k' := by
  unfold fseek
  refine Meets.bind_iff.mpr (Meets.of_run_eq (fileGetDescriptor_eq fd k) ?_)
  cases hd : k.openFile fd with
  | none => exact Meets.pure_iff.mpr (by simp [DoneOnCursor])
  | some desc =>
    -- a call that fails puts the descriptor back as it was
    have hfail (e : Int) (he : e ≠ 0) :
        DoneOnCursor fd k (.fseek offset whence, e) (k.withFile fd desc) := by
      simpa [DoneOnCursor, he] using Kernel.cursor_withFile hd
    simp only [Meets.bind_iff, setFileDescriptor_iff, Meets.pure_iff, fat16Seek, Meets.ite_iff]
    refine ⟨fun _ => hfail _ (by decide), fun _ => ?_⟩
    cases hu : desc.privateData.item.union with
    | null => simp [FatItem.entry, hu]
    | directory a d => simp [FatItem.entry, hu]
    | item a entry =>
      simp only [FatItem.entry, hu, Meets.pure_iff]
      refine ⟨fun _ => hfail _ (by decide), fun hlt => ?_⟩
      have hdone (pos : ℕ) (hw : ∀ c : Cursor, c.pos = desc.privateData.pos →
          c.seek (asUnsigned offset) whence = some { c with pos := pos }) :
          DoneOnCursor fd k (.fseek offset whence, 0)
            (k.withFile fd { desc with privateData := { desc.privateData with pos := pos } }) := by
        simp only [DoneOnCursor, if_true]
        intro c hc
        obtain ⟨hlen, hpos⟩ := Kernel.cursor_eq_some hd hu hc
        exact ⟨by omega, by rw [Kernel.cursor_withPos hd hc, hw c hpos]⟩
      cases whence with
      | seekSet => exact Meets.pure_iff.mpr (hdone _ fun c _ => rfl)
      | seekCur => exact Meets.pure_iff.mpr (hdone _ fun c hc => by rw [Cursor.seek, hc])
      | seekEnd => exact Meets.pure_iff.mpr (hfail (-EUNIMP) (by decide))
      | other => exact Meets.pure_iff.mpr (hfail (-EINVARG) (by decide))

/-! ## Runs -/

/-- An accepted `fread` leaves the cursor where it was. -/
theorem done_iff_refused {fd : Int} {k k' : Kernel} {call : FileCall × Int}
    (h : FileStep fd k call k') : DoneOnCursor fd k call k' ↔ Refused fd k call.1 := by
  cases h with
  | fseek h => exact iff_of_true (fseek_meets.of_eq h) trivial
  | fread hptr hsize hn h =>
    rename_i ptr size nmemb res
    obtain ⟨⟨m, rfl⟩, hneg⟩ := (fread_meets hn).of_eq h
    rw [← hneg]
    constructor
    · intro hdone
      by_contra hres
      obtain ⟨c, data, c', hc, hread, -, hc'⟩ := hdone (not_lt.mp hres)
      have hsame : c' = c := Option.some.inj (hc'.symm.trans hc)
      have hpos := Cursor.read_pos hread
      rw [hsame] at hpos
      have hzero : size * nmemb = 0 := by omega
      have hrefused : Refused fd k (.fread ptr size nmemb) := by
        rcases Nat.mul_eq_zero.mp hzero with h0 | h0
        · exact .inl h0
        · exact .inr (.inl h0)
      exact hres (hneg.mpr hrefused)
    · exact fun hlt hnonneg => absurd hlt (not_lt.mpr hnonneg)

/-- Every call of a run does what its result says exactly when each `fread` is refused. -/
theorem file_runs_deliver_iff_refused {fd : Int} {k u : Kernel}
    {tr : List (Kernel × (FileCall × Int) × Kernel)} (h : Trace (FileStep fd) k tr u) :
    (∀ x ∈ tr, DoneOnCursor fd x.1 x.2.1 x.2.2) ↔ ∀ x ∈ tr, Refused fd x.1 x.2.1.1 :=
  h.forall_iff (I := fun _ => True) (P := fun k l k' => DoneOnCursor fd k l k')
    (C := fun k l _ => Refused fd k l.1) trivial (fun _ _ _ _ _ _ => trivial)
    fun _ _ _ hs _ => done_iff_refused hs

/-! ## A volume with one file -/

/-- The path `0:/A`. -/
def smallPath : List UInt8 := [48, 58, 47, 65]

/-- Mounting the volume and opening `A` for reading. -/
def openSmallFile : Option (Int × Kernel) :=
  (do diskSearchAndInit; fopen smallPath [114] : KernelM Int)
    (smallKernel (fileEntry 65) [120, 121])

theorem openSmallFile_eq_some {fd : Int} {k : Kernel} (h : openSmallFile = some (fd, k))
    (hfd : 0 < fd) : Opened (smallVolume (fileEntry 65) [120, 121]) smallPath fd k := by
  obtain ⟨_, k₀, hmount, hopen⟩ := bind_eq_some.mp h
  exact ⟨k₀, hmount, hopen, hfd⟩

/-- A file of two bytes fits the one cluster of its chain. -/
theorem wellFormedFile_small {image : DiskImage} {p : FatPrivate}
    (hs : p.header.sectorsPerCluster = 1) (h₀ : fileCluster image p (fileEntry 65) 0 = 2)
    (h₁ : fileCluster image p (fileEntry 65) 1 = 65535) :
    WellFormedFile image p (fileEntry 65) := by
  have hsize : itemFilesize (fileEntry 65) = 2 := by decide
  have hcluster : p.header.sectorsPerCluster * sectorSize = 512 := by simp [hs]
  refine ⟨by decide, by decide, by omega, fun n hn => ?_, fun m n hmn hn => ?_,
    fun n hn hn' => ?_⟩ <;> rw [hcluster, hsize] at hn
  · have : n = 0 := by omega
    rw [this, h₀]
    decide
  · omega
  · rw [hcluster, hsize] at hn'
    have : n = 1 := by omega
    rw [this, h₁]
    decide

/-- The file is well formed, a byte of it can be read and its second byte sought. -/
theorem smallVolume_opened : ∃ k, Opened (smallVolume (fileEntry 65) [120, 121]) smallPath 1 k ∧
    k.OpenWellFormed 1 ∧
    (∃ k', fread 0x2000000 1 1 1 k = some (1, k')) ∧ ∃ k', fseek 1 1 .seekSet k = some (0, k') := by
  have h : (openSmallFile.map fun x => (x.1, (x.2.openFile 1).map fun d =>
      d.privateData.item.union)) = some (1, some (.item 16818176 (fileEntry 65))) := by
    decide +kernel
  have hp : (openSmallFile.map fun x => x.2.disk.fsPrivate.map fun p =>
      (p.header.sectorsPerCluster, fileCluster x.2.image p (fileEntry 65) 0,
        fileCluster x.2.image p (fileEntry 65) 1)) = some (some (1, 2, 65535)) := by
    decide +kernel
  have hcalls : (openSmallFile.map fun x => ((fread 0x2000000 1 1 1 x.2).map Prod.fst,
      (fseek 1 1 .seekSet x.2).map Prod.fst)) = some (some 1, some 0) := by
    decide +kernel
  obtain ⟨⟨fd, k⟩, hk, hfd⟩ := Option.map_eq_some_iff.mp h
  obtain ⟨rfl, hdesc⟩ := Prod.mk.inj hfd
  obtain ⟨desc, hopen, hunion⟩ := Option.map_eq_some_iff.mp hdesc
  rw [hk] at hp hcalls
  obtain ⟨p, hmounted, hchain⟩ := Option.map_eq_some_iff.mp (Option.some.inj hp)
  obtain ⟨hs, hchain⟩ := Prod.mk.inj hchain
  obtain ⟨h₀, h₁⟩ := Prod.mk.inj hchain
  obtain ⟨hread, hseek⟩ := Prod.mk.inj (Option.some.inj hcalls)
  obtain ⟨⟨_, k₁⟩, hread, rfl⟩ := Option.map_eq_some_iff.mp hread
  obtain ⟨⟨_, k₂⟩, hseek, rfl⟩ := Option.map_eq_some_iff.mp hseek
  exact ⟨k, openSmallFile_eq_some hk (by decide),
    ⟨desc, p, _, _, hopen, hmounted, hunion, wellFormedFile_small hs h₀ h₁⟩, ⟨k₁, hread⟩,
    ⟨k₂, hseek⟩⟩

/-- A seek and a refused read of nothing leave the cursor as promised. -/
theorem smallFile_refused_run : ∃ k u tr,
    Opened (smallVolume (fileEntry 65) [120, 121]) smallPath 1 k ∧
    Trace (FileStep 1) k tr u ∧ tr.length = 2 ∧ ∀ x ∈ tr, DoneOnCursor 1 x.1 x.2.1 x.2.2 := by
  obtain ⟨k, hopen, -, -, k', hseek⟩ := smallVolume_opened
  have hrun : Trace (FileStep 1) k
      [(k, (.fseek 1 .seekSet, 0), k'), (k', (.fread 0x2000000 0 1, -EINVARG), k')] k' :=
    .cons (.fseek hseek) (.cons (.fread (by decide) (by decide) (by decide) rfl) (.nil k'))
  refine ⟨k, k', _, hopen, hrun, rfl, (file_runs_deliver_iff_refused hrun).mpr ?_⟩
  simp [Refused]

/-- Reading the first byte of a file of two leaves the position at it. -/
theorem file_runs_not_all_deliver : ¬∀ (image : DiskImage) (path : List UInt8) (fd : Int)
    (k u : Kernel) (tr : List (Kernel × (FileCall × Int) × Kernel)), Opened image path fd k →
    k.OpenWellFormed fd → Trace (FileStep fd) k tr u →
    ∀ x ∈ tr, DoneOnCursor fd x.1 x.2.1 x.2.2 := by
  intro hall
  obtain ⟨k, hopen, hwell, ⟨k', hread⟩, -⟩ := smallVolume_opened
  have hstep : FileStep 1 k (.fread 0x2000000 1 1, 1) k' :=
    .fread (by decide) (by decide) (by decide) hread
  have hdone := hall _ _ _ _ _ _ hopen hwell (.cons hstep (.nil k')) _ (List.mem_singleton.mpr rfl)
  have hrefused := (done_iff_refused hstep).mp hdone
  have hneg := ((fread_meets (by decide)).of_eq hread).2.mpr hrefused
  exact absurd hneg (by decide)

end Hyperion
