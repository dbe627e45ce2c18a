import Hyperion.FileCursor
import Hyperion.Lib.Unwinding

/-!
# The shared streams

All open files read through the `cluster_read_stream` and the `fat_read_stream` of the
volume, each of which has one position. The functions of `fat16.c` with these positions as
their state, and that what they return never depends on them, since each seeks before it
reads. So calls on one descriptor have the results that they would have without the calls
on the others (`open_files_do_not_interfere`).

The model of `fat16.c` reads the disk at a position and has no streams. Here the two positions are
in the state (`FatStreams`), and a lemma `_computes` for each function says that without them it is
that of the model, up to `fat16ReadInternal_computes`. `Projects` is the same for programs that
change the kernel as well, and goes through sequences part by part (`Projects.bind`).

What a call on a descriptor depends on is the disk and its own open file (`Kernel.fileView`). The
lemmas `_respects` say that no other part of the state is looked at, and the lemmas `_unchanged`
that a call on one descriptor leaves the view of the others as it was. The two make the calls
separate (`fdCall_separated`), and a run of calls is then the runs of the descriptors, in whatever
order they are interleaved.
-/

namespace Hyperion

open Partial

/-- The streams of `struct fat_private` that the files read through. -/
structure FatStreams where
  clusterReadStream : DiskStream
  fatReadStream : DiskStream

abbrev StreamM := Prog FatStreams

namespace Streams

/-! ## Reading with the streams as the state -/

section Reading

variable (image : DiskImage) (fatPrivate : FatPrivate)

/-- Seek on the stream of the allocation table. -/
def seekFat (pos : Int) : StreamM Unit :=
  modify fun s => { s with fatReadStream := diskstreamerSeek s.fatReadStream pos }

/-- Read from it. -/
def readFat (total : Int) : StreamM (List UInt8) := fun s =>
  (diskstreamerRead image s.fatReadStream total).map fun r => (r.1, { s with fatReadStream := r.2 })

/-- Seek on the stream of the clusters. -/
def seekCluster (pos : Int) : StreamM Unit :=
  modify fun s => { s with clusterReadStream := diskstreamerSeek s.clusterReadStream pos }

/-- Read from that. -/
def readCluster (total : Int) : StreamM (List UInt8) := fun s =>
  (diskstreamerRead image s.clusterReadStream total).map fun r =>
    (r.1, { s with clusterReadStream := r.2 })

def fat16GetFatEntry (cluster : Int) : StreamM Int := do
  let fatTablePosition := fat16GetFirstFatSector fatPrivate * sectorSize
  seekFat (wrapInt (fatTablePosition * (cluster * 2)))
  let _ ← readFat image 2
  return 0

/-- The walk along the chain, cluster by cluster. -/
def fat16GetClusterForOffsetLoop : (clustersAhead : ℕ) → (clusterToUse : Int) → StreamM Int
  | 0, clusterToUse => return clusterToUse
  | n + 1, clusterToUse => do
    let entry ← fat16GetFatEntry image fatPrivate clusterToUse
    if entry = 0xFF8 ∨ entry = 0xFFF then return - EIO
    if entry = fat16BadSector then return - EIO
    if entry = 0xFF0 ∨ entry = 0xFF6 then return - EIO
    if entry = 0 then return - EIO
    fat16GetClusterForOffsetLoop n entry

def fat16GetClusterForOffset (startingCluster offset : Int) : StreamM Int :=
  if sizeOfClusterBytes fatPrivate = 0 then fault
  else
    fat16GetClusterForOffsetLoop image fatPrivate
      (offset.tdiv (sizeOfClusterBytes fatPrivate)).toNat startingCluster

/-- A read cluster by cluster, `fuel` deep. Each round seeks before it reads. -/
def fat16ReadInternalFromStream :
    (fuel : ℕ) → (cluster offset total : Int) → StreamM (Int × List UInt8)
  | 0, _, _, _ => fault
  | fuel + 1, cluster, offset, total => do
    let clusterToUse ← fat16GetClusterForOffset image fatPrivate cluster offset
    if clusterToUse < 0 then return (clusterToUse, [])
    let offsetFromCluster := offset.tmod (sizeOfClusterBytes fatPrivate)
    let startingSector := fat16ClusterToSector fatPrivate clusterToUse
    let startingPos := wrapInt (startingSector * sectorSize + offsetFromCluster)
    let totalToRead :=
      if sizeOfClusterBytes fatPrivate < total then sizeOfClusterBytes fatPrivate else total
    seekCluster startingPos
    let bytes ← readCluster image totalToRead
    let total := total - totalToRead
    if 0 < total then
      let (res, rest) ←
        fat16ReadInternalFromStream fuel cluster (wrapInt (offset + totalToRead)) total
      return (res, bytes ++ rest)
    return (0, bytes)

def fat16ReadInternal (startingCluster offset total : Int) : StreamM (Int × List UInt8) :=
  fat16ReadInternalFromStream image fatPrivate (total.toNat + 1) startingCluster offset total

/-! ## What they return -/

variable {image fatPrivate} {β : Type} {pos total : Int} {f : List UInt8 → StreamM β}
  {g : List UInt8 → Option β}

/-- A read behind a seek returns what is at the position sought. -/
theorem readFat_computes (hf : ∀ bytes, Computes (f bytes) (g bytes)) :
    Computes (do seekFat pos; let bytes ← readFat image total; f bytes)
      ((diskstreamerRead image ⟨pos⟩ total).bind fun r => g r.1) := by
  intro s
  simp only [run_bind, seekFat, run_modify, readFat, diskstreamerSeek, Option.bind_some]
  cases diskstreamerRead image ⟨pos⟩ total with
  | none => rfl
  | some r => exact hf r.1 _

/-- Read behind a seek, the stream makes no difference. -/
theorem readCluster_computes (hf : ∀ bytes, Computes (f bytes) (g bytes)) :
    Computes (do seekCluster pos; let bytes ← readCluster image total; f bytes)
      ((diskstreamerRead image ⟨pos⟩ total).bind fun r => g r.1) := by
  intro s
  simp only [run_bind, seekCluster, run_modify, readCluster, diskstreamerSeek, Option.bind_some]
  cases diskstreamerRead image ⟨pos⟩ total with
  | none => rfl
  | some r => exact hf r.1 _

/-- Entries of the allocation table are read behind a seek. -/
theorem fat16GetFatEntry_computes (cluster : Int) :
    Computes (fat16GetFatEntry image fatPrivate cluster)
      (Hyperion.fat16GetFatEntry image fatPrivate cluster) :=
  readFat_computes fun _ => .pure 0

/-- So is every entry of the walk. -/
theorem fat16GetClusterForOffsetLoop_computes : ∀ (n : ℕ) (cluster : Int),
    Computes (fat16GetClusterForOffsetLoop image fatPrivate n cluster)
      (Hyperion.fat16GetClusterForOffsetLoop image fatPrivate n cluster)
  | 0, cluster => .pure cluster
  | n + 1, cluster =>
    .bind (fat16GetFatEntry_computes cluster) fun entry =>
      .ite (.pure _) (.ite (.pure _) (.ite (.pure _) (.ite (.pure _)
        (fat16GetClusterForOffsetLoop_computes n entry))))

/-- The cluster of an offset does not depend on the streams. -/
theorem fat16GetClusterForOffset_computes (cluster offset : Int) :
    Computes (fat16GetClusterForOffset image fatPrivate cluster offset)
      (Hyperion.fat16GetClusterForOffset image fatPrivate cluster offset) :=
  .ite .fault (fat16GetClusterForOffsetLoop_computes _ cluster)

/-- Neither do the bytes of a read, by recursion on the fuel. -/
theorem fat16ReadInternalFromStream_computes : ∀ (fuel : ℕ) (cluster offset total : Int),
    Computes (fat16ReadInternalFromStream image fatPrivate fuel cluster offset total)
      (Hyperion.fat16ReadInternalFromStream image fatPrivate fuel cluster offset total)
  | 0, _, _, _ => .fault
  | fuel + 1, cluster, offset, _ =>
    .bind (fat16GetClusterForOffset_computes cluster offset) fun _ =>
      .ite (.pure _) (readCluster_computes fun _ =>
        .ite (.bind (fat16ReadInternalFromStream_computes fuel cluster _ _) fun _ => .pure _)
          (.pure _))

/-- And so a read is that of `Hyperion.fat16ReadInternal`. -/
theorem fat16ReadInternal_computes (cluster offset total : Int) :
    Computes (fat16ReadInternal image fatPrivate cluster offset total)
      (Hyperion.fat16ReadInternal image fatPrivate cluster offset total) :=
  fat16ReadInternalFromStream_computes _ cluster offset total

end Reading

end Streams

/-! ## Files with the streams as a part of the state -/

/-- A program on the kernel and the streams. -/
abbrev FileM := Prog (Kernel × FatStreams)

/-- A program on the kernel, which leaves the streams. -/
def onKernel {α : Type} (m : KernelM α) : FileM α := fun s =>
  (m s.1).map fun r => (r.1, (r.2, s.2))

/-- A program on the streams, which leaves the kernel. -/
def onStreams {α : Type} (m : StreamM α) : FileM α := fun s =>
  (m s.2).map fun r => (r.1, (s.1, r.2))

/-- What the disk controller returns. -/
def diskImage : KernelM DiskImage := do
  let k ← get
  return k.image

/-- What a read stored : the address and the bytes of each piece. -/
abbrev Stored := List (ℕ × List UInt8)

namespace Streams

/-- The loop of `fat16_read`, with what it has stored. -/
def fat16ReadLoop (item : List UInt8) (size : ℕ) :
    (fuel : ℕ) → (offset : Int) → (outPtr : ℕ) → FileM (Int × Stored)
  | 0, _, _ => return (0, [])
  | fuel + 1, offset, outPtr => do
    let fatPrivate ← onKernel fsPrivate
    let image ← onKernel diskImage
    let (res, bytes) ← onStreams (Streams.fat16ReadInternal image fatPrivate
      (fat16GetFirstCluster item) offset (asSigned size))
    onKernel (storeBytes outPtr bytes)
    if res < 0 then return (res, [(outPtr, bytes)])
    let (res, stored) ←
      fat16ReadLoop item size fuel (wrapInt (offset + size)) ((outPtr + size) % 4294967296)
    return (res, (outPtr, bytes) :: stored)

def fat16Read (descriptor : FatFileDescriptor) (size nmemb outPtr : ℕ) :
    FileM (Int × Stored) := do
  let item ← onKernel descriptor.item.entry
  let (res, stored) ← fat16ReadLoop item size nmemb (asSigned descriptor.pos) outPtr
  if res < 0 then return (res, stored)
  return (asSigned nmemb, stored)

def fread (ptr size nmemb : ℕ) (fd : Int) : FileM (Int × Stored) := do
  if size = 0 ∨ nmemb = 0 ∨ fd < 1 then return (-EINVARG, [])
  match ← onKernel (fileGetDescriptor fd) with
  | none => return (-EINVARG, [])
  | some desc => fat16Read desc.privateData size nmemb ptr

end Streams

/-- A call on a descriptor. -/
inductive FdCall
  | fread (ptr size nmemb : ℕ)
  | fseek (offset : Int) (whence : FileSeekMode)
  | fstat

/-- What a call returns, with the bytes that a read has stored. -/
inductive FdOutcome
  | fread (res : Int) (stored : Stored)
  | fseek (res : Int)
  | fstat (res : Int) (stat : FileStat)

/-- What a call on the descriptor `fd` does, with its outcome. -/
def fdCall (fd : Int) : FdCall → FileM FdOutcome
  | .fread ptr size nmemb => do
    let (res, stored) ← Streams.fread ptr size nmemb fd
    return .fread res stored
  | .fseek offset whence => do
    let res ← onKernel (fseek fd offset whence)
    return .fseek res
  | .fstat => do
    let (res, stat) ← onKernel (fstat fd)
    return .fstat res stat

/-! ## Views -/

/-- What calls on `fd` depend on : the disk and the open file. -/
def Kernel.fileView (fd : Int) (k : Kernel) : DiskImage × DiskState × Option FileDescriptor :=
  (k.image, k.disk, k.openFile fd)

/-- The same to the calls on `fd`. -/
def SameView (fd : Int) (k k' : Kernel) : Prop := k.fileView fd = k'.fileView fd

section Views

variable {α : Type} {fd : Int} {m : KernelM α}

/-- A program that looks at nothing but what `fd` sees. -/
theorem respects_of_view {g : DiskImage × DiskState × Option FileDescriptor → Option α}
    (h : ∀ k, m k = (g (k.fileView fd)).map fun a => (a, k)) : Respects (SameView fd) m := by
  rintro k k' a t hR he
  rw [h] at he
  obtain ⟨b, hb, he⟩ := Option.map_eq_some_iff.mp he
  obtain ⟨rfl, rfl⟩ := Prod.mk.inj he
  refine ⟨k', ?_, hR⟩
  rw [h, ← hR, hb]
  rfl

theorem fsPrivate_respects : Respects (SameView fd) fsPrivate := by
  refine respects_of_view (g := fun v => v.2.1.fsPrivate) fun k => ?_
  simp only [fsPrivate, run_bind, run_get, Option.bind_some, Kernel.fileView]
  cases k.disk.fsPrivate <;> rfl

theorem diskImage_respects : Respects (SameView fd) diskImage :=
  respects_of_view (g := fun v => some v.1) fun _ => rfl

theorem fileGetDescriptor_respects : Respects (SameView fd) (fileGetDescriptor fd) :=
  respects_of_view (g := fun v => some v.2.2) (fileGetDescriptor_eq fd)

theorem entry_respects (item : FatItem) : Respects (SameView fd) item.entry := by
  unfold FatItem.entry
  cases item.union with
  | item p bytes => exact .pure bytes
  | null => exact .fault
  | directory p d => exact .fault

/-- Bytes are stored to the same place in both memories. -/
theorem storeBytes_respects {p : ℕ} {bs : List UInt8} :
    Respects (SameView fd) (storeBytes p bs) := by
  rintro k k' a t hR he
  unfold storeBytes at he ⊢
  split_ifs at he ⊢
  cases he
  exact ⟨_, rfl, hR⟩

/-- The descriptor is replaced by the same one. -/
theorem setFileDescriptor_respects {d : FileDescriptor} :
    Respects (SameView fd) (setFileDescriptor (fd - 1).toNat (some d)) := by
  rintro k k' a t hR he
  cases he
  refine ⟨_, rfl, ?_⟩
  simp only [SameView, Kernel.fileView, Prod.mk.injEq] at hR ⊢
  exact ⟨hR.1, hR.2.1, by simp [Kernel.openFile]⟩

theorem fat16Stat_respects (d : FatFileDescriptor) : Respects (SameView fd) (fat16Stat d) :=
  .ite (.pure _) (.bind (entry_respects _) fun _ => .pure _)

/-- The new position depends on the descriptor alone. -/
theorem fat16Seek_respects (d : FatFileDescriptor) (offset : ℕ) (whence : FileSeekMode) :
    Respects (SameView fd) (fat16Seek d offset whence) := by
  refine .ite (.pure _) (.bind (entry_respects _) fun _ => .ite (.pure _) ?_)
  cases whence <;> exact .pure _

/-- What `fstat` answers depends on the descriptor. -/
theorem fstat_respects : Respects (SameView fd) (fstat fd) := by
  refine .bind fileGetDescriptor_respects fun desc => ?_
  cases desc with
  | none => exact .pure _
  | some desc => exact fat16Stat_respects _

/-- So does what `fseek` answers. -/
theorem fseek_respects (offset : Int) (whence : FileSeekMode) :
    Respects (SameView fd) (fseek fd offset whence) := by
  refine .bind fileGetDescriptor_respects fun desc => ?_
  cases desc with
  | none => exact .pure _
  | some desc =>
    refine .bind (fat16Seek_respects _ _ _) fun r => ?_
    exact .bind setFileDescriptor_respects fun _ => .pure _

end Views

/-! ## Without the streams -/

/-- Without the streams, and with `f` of the result, `m` is `m'`. -/
def Projects {α β : Type} (f : α → β) (m : FileM α) (m' : KernelM β) : Prop :=
  ∀ s, (m s).map (fun r => (f r.1, r.2.1)) = m' s.1

namespace Projects

variable {α β γ δ : Type} {f : α → β}

theorem pure (a : α) : Projects f (pure a) (pure (f a)) := fun _ => rfl

theorem onKernel (m : KernelM α) : Projects id (onKernel m) m := fun s => by
  rw [Hyperion.onKernel, Option.map_map]
  exact Option.map_id'

/-- What is read through the streams is what is read without. -/
theorem onStreams {m : StreamM α} {o : Option α} (h : Computes m o) :
    Projects id (onStreams m) (defined o) := fun s => by
  rw [← h s.2, Hyperion.onStreams, Option.map_map]
  cases m s.2 <;> rfl

/-- Sequences project part by part. -/
theorem bind {m : FileM α} {m' : KernelM β} {g : α → FileM γ} {g' : β → KernelM δ} {f' : γ → δ}
    (h : Projects f m m') (hg : ∀ a, Projects f' (g a) (g' (f a))) :
    Projects f' (m >>= g) (m' >>= g') := fun s => by
  rw [run_bind, run_bind, ← h s]
  cases m s with
  | none => rfl
  | some x => exact hg x.1 x.2

/-- More of the result can be kept than `m'` returns. -/
theorem map {m : FileM α} {m' : KernelM β} {g : α → γ} {f' : γ → β} (h : Projects f m m')
    (hg : ∀ a, f' (g a) = f a) : Projects f' (do let a ← m; return g a) m' := fun s => by
  rw [run_bind, ← h s]
  cases m s with
  | none => rfl
  | some x => exact congrArg (fun b => some (b, x.2.1)) (hg x.1)

theorem ite {c : Prop} [Decidable c] {m₁ m₂ : FileM α} {m₁' m₂' : KernelM β}
    (h : Projects f m₁ m₁') (h' : Projects f m₂ m₂') :
    Projects f (if c then m₁ else m₂) (if c then m₁' else m₂') := by
  split_ifs
  · exact h
  · exact h'

/-- Of the state that the loop looks at it needs the image. -/
theorem diskImage {g : DiskImage → FileM α} {g' : Kernel → KernelM β}
    (hg : ∀ k, Projects f (g k.image) (g' k)) :
    Projects f (Hyperion.onKernel Hyperion.diskImage >>= g) (get >>= g') := fun s => hg s.1 s

end Projects

/-- The items of a read are those of the read without streams, by recursion on their number. -/
theorem Streams.fat16ReadLoop_projects (item : List UInt8) (size : ℕ) : ∀ (fuel : ℕ)
    (offset : Int) (outPtr : ℕ), Projects Prod.fst
      (Streams.fat16ReadLoop item size fuel offset outPtr)
      (Hyperion.fat16ReadLoop item size fuel offset outPtr)
  | 0, _, _ => .pure _
  | fuel + 1, _, _ =>
    .bind (.onKernel _) fun _ => .diskImage fun _ =>
      .bind (.onStreams (Streams.fat16ReadInternal_computes _ _ _)) fun _ =>
        .bind (.onKernel _) fun _ => .ite (.pure _)
          (.map (Streams.fat16ReadLoop_projects item size fuel _ _) fun _ => rfl)

/-- `fread` is `fread` with the positions of the streams left out. -/
theorem Streams.fread_projects (ptr size nmemb : ℕ) (fd : Int) :
    Projects Prod.fst (Streams.fread ptr size nmemb fd) (Hyperion.fread ptr size nmemb fd) := by
  refine .ite (.pure _) (.bind (.onKernel _) fun desc => ?_)
  cases desc with
  | none => exact .pure _
  | some desc =>
    refine .bind (.onKernel _) fun item => ?_
    exact .bind (Streams.fat16ReadLoop_projects item _ _ _ _) fun _ => .ite (.pure _) (.pure _)

/-! ## Calls -/

/-- The relation with whatever positions of the streams. -/
abbrev SameFile (fd : Int) (s t : Kernel × FatStreams) : Prop := SameView fd s.1 t.1

section Calls

variable {α : Type} {fd : Int}

/-- What the kernel's view decides, the file's view decides. -/
theorem onKernel_respects {m : KernelM α} (h : Respects (SameView fd) m) :
    Respects (SameFile fd) (onKernel m) := by
  rintro s t a s' hR he
  obtain ⟨⟨b, k⟩, hm, he⟩ := Option.map_eq_some_iff.mp he
  obtain ⟨rfl, rfl⟩ := Prod.mk.inj he
  obtain ⟨k', hm', hR'⟩ := h _ _ _ _ hR hm
  exact ⟨(k', t.2), by simp [onKernel, hm'], hR'⟩

/-- What is read through the streams does not depend on where they stand. -/
theorem onStreams_respects {m : StreamM α} {o : Option α} (h : Computes m o) :
    Respects (SameFile fd) (onStreams m) := by
  rintro s t a s' hR he
  obtain ⟨⟨b, u⟩, hm, he⟩ := Option.map_eq_some_iff.mp he
  obtain ⟨rfl, rfl⟩ := Prod.mk.inj he
  have ho := h.eq_some hm
  subst ho
  obtain ⟨w, hw⟩ := h.exists_run t.2
  exact ⟨(t.1, w), by simp [onStreams, hw], hR⟩

/-- The items of a read depend on the view of the file alone. -/
theorem Streams.fat16ReadLoop_respects (item : List UInt8) (size : ℕ) : ∀ (fuel : ℕ)
    (offset : Int) (outPtr : ℕ),
    Respects (SameFile fd) (Streams.fat16ReadLoop item size fuel offset outPtr)
  | 0, _, _ => .pure _
  | fuel + 1, _, _ =>
    .bind (onKernel_respects fsPrivate_respects) fun _ =>
      .bind (onKernel_respects diskImage_respects) fun _ =>
        .bind (onStreams_respects (Streams.fat16ReadInternal_computes _ _ _)) fun _ =>
          .bind (onKernel_respects storeBytes_respects) fun _ =>
            .ite (.pure _)
              (.bind (Streams.fat16ReadLoop_respects item size fuel _ _) fun _ => .pure _)

/-- So does the whole of `fread`. -/
theorem Streams.fread_respects (ptr size nmemb : ℕ) :
    Respects (SameFile fd) (Streams.fread ptr size nmemb fd) := by
  refine .ite (.pure _) (.bind (onKernel_respects fileGetDescriptor_respects) fun desc => ?_)
  cases desc with
  | none => exact .pure _
  | some desc =>
    refine .bind (onKernel_respects (entry_respects _)) fun item => ?_
    exact .bind (Streams.fat16ReadLoop_respects item _ _ _ _) fun _ => .ite (.pure _) (.pure _)

/-- What a call on `fd` returns, and what it leaves behind for the next one, depends on
what `fd` sees only. -/
theorem fdCall_respects : ∀ c : FdCall, Respects (SameFile fd) (fdCall fd c)
  | .fread ptr size nmemb => .bind (Streams.fread_respects ptr size nmemb) fun _ => .pure _
  | .fseek offset whence => .bind (onKernel_respects (fseek_respects offset whence))
    fun _ => .pure _
  | .fstat => .bind (onKernel_respects fstat_respects) fun _ => .pure _

/-! ## The other files -/

variable {e : Int} {V : Type} {v : Kernel → V}

/-- The streams have no part in what is seen of the kernel. -/
theorem onKernel_unchanged {m : KernelM α} (h : Unchanged v m) :
    Unchanged (fun s => v s.1) (onKernel m) := by
  intro s a t he
  obtain ⟨⟨b, k⟩, hm, he⟩ := Option.map_eq_some_iff.mp he
  obtain ⟨rfl, rfl⟩ := Prod.mk.inj he
  exact h _ _ _ hm

/-- A program on the streams leaves the kernel. -/
theorem onStreams_unchanged (m : StreamM α) : Unchanged (fun s => v s.1) (onStreams m) := by
  intro s a t he
  obtain ⟨x, -, hx⟩ := Option.map_eq_some_iff.mp he
  obtain ⟨-, rfl⟩ := Prod.mk.inj hx
  rfl

theorem fileGetDescriptor_unchanged : Unchanged v (fileGetDescriptor fd) := by
  intro k a t he
  rw [fileGetDescriptor_eq] at he
  cases he
  rfl

theorem fsPrivate_unchanged : Unchanged v fsPrivate := by
  refine .bind (fun k a t he => ?_) fun k => ?_
  · cases he
    rfl
  · cases k.disk.fsPrivate with
    | none => exact .fault
    | some p => exact .pure p

theorem entry_unchanged (item : FatItem) : Unchanged v item.entry := by
  unfold FatItem.entry
  cases item.union with
  | item p bytes => exact .pure bytes
  | null => exact .fault
  | directory p d => exact .fault

theorem fat16Seek_unchanged (d : FatFileDescriptor) (offset : ℕ) (whence : FileSeekMode) :
    Unchanged v (fat16Seek d offset whence) := by
  refine .ite (.pure _) (.bind (entry_unchanged _) fun _ => .ite (.pure _) ?_)
  cases whence <;> exact .pure _

theorem fstat_unchanged : Unchanged v (fstat fd) := by
  refine .bind fileGetDescriptor_unchanged fun desc => ?_
  cases desc with
  | none => exact .pure _
  | some desc => exact .ite (.pure _) (.bind (entry_unchanged _) fun _ => .pure _)

/-- Stored bytes are not in the view of a file. -/
theorem storeBytes_unchanged {p : ℕ} {bs : List UInt8} :
    Unchanged (Kernel.fileView e) (storeBytes p bs) := by
  intro k a t he
  unfold storeBytes at he
  split_ifs at he
  cases he
  rfl

/-- A seek sets the position of its own file. -/
theorem fseek_unchanged (offset : Int) (whence : FileSeekMode) (hne : fd ≠ e) :
    Unchanged (Kernel.fileView e) (fseek fd offset whence) := by
  intro k a t he
  obtain ⟨desc, k₁, hget, he⟩ := bind_eq_some.mp he
  rw [fileGetDescriptor_eq] at hget
  obtain ⟨rfl, rfl⟩ := Prod.mk.inj (Option.some.inj hget)
  cases hd : k.openFile fd with
  | none =>
    rw [hd] at he
    cases he
    rfl
  | some desc =>
    rw [hd] at he
    obtain ⟨r, k₁, hseek, he⟩ := bind_eq_some.mp he
    have hk₁ := fat16Seek_unchanged (v := id) _ _ _ _ _ _ hseek
    cases he
    obtain rfl : k₁ = k := hk₁
    simp only [Kernel.fileView, Prod.mk.injEq, true_and]
    unfold Kernel.openFile at hd ⊢
    split_ifs at hd ⊢ with hfd he
    · rfl
    · exact if_neg (by omega)

/-- A read of one descriptor is not seen through another. -/
theorem Streams.fat16ReadLoop_unchanged (item : List UInt8) (size : ℕ) : ∀ (fuel : ℕ)
    (offset : Int) (outPtr : ℕ), Unchanged (fun s => s.1.fileView e)
      (Streams.fat16ReadLoop item size fuel offset outPtr)
  | 0, _, _ => .pure _
  | fuel + 1, _, _ =>
    .bind (onKernel_unchanged fsPrivate_unchanged) fun _ =>
      .bind (onKernel_unchanged fun _ _ _ h => by cases h; rfl) fun _ =>
        .bind (onStreams_unchanged _) fun _ =>
          .bind (onKernel_unchanged storeBytes_unchanged) fun _ =>
            .ite (.pure _)
              (.bind (Streams.fat16ReadLoop_unchanged item size fuel _ _) fun _ => .pure _)

/-- So `fread` is not either. -/
theorem Streams.fread_unchanged (ptr size nmemb : ℕ) :
    Unchanged (fun s => s.1.fileView e) (Streams.fread ptr size nmemb fd) := by
  refine .ite (.pure _) (.bind (onKernel_unchanged fileGetDescriptor_unchanged) fun desc => ?_)
  cases desc with
  | none => exact .pure _
  | some desc =>
    refine .bind (onKernel_unchanged (entry_unchanged _)) fun item => ?_
    exact .bind (Streams.fat16ReadLoop_unchanged item _ _ _ _) fun _ => .ite (.pure _) (.pure _)

/-- A call on one file changes nothing that the calls on another see. -/
theorem fdCall_unchanged (hne : fd ≠ e) :
    ∀ c : FdCall, Unchanged (fun s => s.1.fileView e) (fdCall fd c)
  | .fread ptr size nmemb => .bind (Streams.fread_unchanged ptr size nmemb) fun _ => .pure _
  | .fseek offset whence =>
    .bind (onKernel_unchanged (fseek_unchanged offset whence hne)) fun _ => .pure _
  | .fstat => .bind (onKernel_unchanged fstat_unchanged) fun _ => .pure _

/-- The calls on the descriptors are separated by their views. -/
theorem fdCall_separated :
    Separated fdCall fun fd (s : Kernel × FatStreams) => s.1.fileView fd where
  own _ c s t o s' hv hs := fdCall_respects c s t o s' hv hs
  other _ _ c s o s' hne hs := fdCall_unchanged hne c s o s' hs

end Calls

/-- Open files do not interfere. In any order of `fread`, `fseek` and `fstat` on any
descriptors each one gets the results and bytes that it gets when its own calls are made
alone, and all of the calls have results if they have alone. -/
theorem open_files_do_not_interfere (s : Kernel × FatStreams) (calls : List (Int × FdCall)) :
    (∀ os u, runCalls fdCall calls s = some (os, u) → ∀ fd,
      ∃ v, runCalls fdCall (ofDomain fd calls) s = some (ofDomain fd os, v)) ∧
    ((∀ fd, ∃ r, runCalls fdCall (ofDomain fd calls) s = some r) →
      ∃ r, runCalls fdCall calls s = some r) := by
  constructor
  · intro os u h fd
    exact fdCall_separated.alone rfl h
  · intro h
    refine fdCall_separated.together fun fd => ?_
    obtain ⟨r, hr⟩ := h fd
    exact ⟨s, r, rfl, hr⟩

end Hyperion
