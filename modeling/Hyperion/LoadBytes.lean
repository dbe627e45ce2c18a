import Hyperion.FatStreams
import Hyperion.ProcessLoad

/-!
# Loading keeps the bytes of others

`process_load_switch` clears blocks that were free, and reads the file to blocks that were free.
So a load that succeeds leaves the bytes of the blocks that were taken as they were
(`processLoadSwitch_keepsBytes`).
-/

namespace Hyperion

open Partial

variable {k k' k₀ k₁ : Kernel} {a ptr size process self slot : ℕ} {fd : Int} {p : Process}
  {filename mode path : List UInt8}

/-! ## Opening -/

/-- A byte in a taken block stays in a taken block. -/
theorem Keeps.covered (h : Keeps k₀.table k.table) (ha : k₀.Covered a) : k.Covered a :=
  ⟨ha.1, h.not_isFree (by rw [Kernel.table_total]; unfold heapTotalBlocks; omega) ha.2⟩

/-- The heap and the bytes. -/
theorem Kernel.KeepsBytes.of_mem (h : k₀.KeepsBytes k) (hk : Keeps k₀.table k'.table)
    (hm : k'.mem = k.mem) : k₀.KeepsBytes k' :=
  ⟨fun _ ha => hk.covered ha, fun a ha => by rw [hm, h.byte a ha]⟩

/-- The steps of opening a file write only to blocks that were free. -/
theorem Kernel.Frame.keepsBytes (hg : Guarded k₀.table) :
    k₀.Frame fun k => k₀.Kept k ∧ k₀.KeepsBytes k where
  kept h := h.1
  alloc h hb := ⟨h.1.trans hb.grows.heap, h.2.trans (.allocated hb)⟩
  release h hp := ⟨h.1.release hp, h.2.of_mem (h.1.release hp hg).keeps rfl⟩

section Open

variable {I : Kernel → Prop} (hI : k₀.Frame I)

include hI

/-- Parsing a path only allocates and stores to what it has allocated. -/
theorem pathparserParse_frame (h : I k) :
    Meets False (pathparserParse path) k fun _ k' => I k' := by
  rw [pathparserParse, Meets.ite_iff]
  refine ⟨fun _ => Meets.pure_iff.mpr h, fun _ => ?_⟩
  cases pathparserGetDriveByPath path with
  | error _ => exact Meets.pure_iff.mpr h
  | ok x =>
    refine Meets.bind_iff.mpr (hI.kzalloc h fun root k₁ h₁ _ => ?_)
    refine Meets.ite_iff.mpr ⟨fun _ => Meets.bind_iff.mpr (Meets.fault_iff.mpr not_false),
      fun _ => ?_⟩
    exact .bind (pathparserParseParts_frame hI _ h₁) fun _ _ h₂ => Meets.pure_iff.mpr h₂

variable (hd : ∀ {k k' : Kernel}, I k → k'.heapTable = k.heapTable → k'.store = k.store →
  k'.mem = k.mem → I k')

include hd

/-- So does the search for a free descriptor. -/
theorem fileNewDescriptorLoop_frame {d : FatFileDescriptor} : ∀ (fuel i : ℕ) {k : Kernel},
    I k → Meets False (fileNewDescriptorLoop d fuel i) k fun _ k' => I k'
  | 0, _, _, h => Meets.pure_iff.mpr h
  | fuel + 1, i, k, h => by
    simp only [fileNewDescriptorLoop, Meets.bind_iff, Meets.get_iff, Meets.ite_iff]
    refine ⟨fun _ => hI.kzalloc h fun self k₁ h₁ _ => ?_,
      fun _ => fileNewDescriptorLoop_frame fuel (i + 1) h⟩
    simp only [Meets.fault_iff, setFileDescriptor_iff, Meets.pure_iff]
    exact ⟨fun _ => not_false, fun _ => hd h₁ rfl rfl rfl⟩

/-- Whatever `fopen` returns, it allocates and frees again at most. -/
theorem fopen_frame (h : I k) : Meets False (fopen path mode) k fun _ k' => I k' := by
  refine .bind (pathparserParse_frame hI h) fun root k₁ h₁ => ?_
  cases root with
  | none => exact Meets.pure_iff.mpr h₁
  | some root =>
    simp only [Meets.ite_iff, Meets.bind_iff, Meets.get_iff, Meets.pure_iff]
    refine ⟨fun _ => h₁, fun _ => ⟨fun _ => h₁, fun _ => ⟨fun _ => h₁, fun _ => ⟨fun _ => h₁,
      fun _ => ?_⟩⟩⟩⟩
    refine (fat16Open_frame hI h₁).mono fun res k₂ hopen => ?_
    have h₂ := hopen.1
    cases res with
    | error _ => exact Meets.pure_iff.mpr h₂
    | ok d =>
      refine .bind (fileNewDescriptorLoop_frame hI hd _ 0 h₂) fun _ _ h₃ => ?_
      exact Meets.ite_iff.mpr ⟨fun _ => Meets.pure_iff.mpr h₃, fun _ => Meets.pure_iff.mpr h₃⟩

end Open

/-- `fopen` leaves the bytes of the taken blocks. -/
theorem fopen_keepsBytes (hg : Guarded k.table) :
    Meets False (fopen path mode) k fun _ k' => k.KeepsBytes k' :=
  (fopen_frame (.keepsBytes hg) (fun h ht hs hm => ⟨h.1.of_eq ht hs, h.2.trans (.of_eq ht hm)⟩)
    ⟨fun _ => .refl k, .refl k⟩).mono fun _ _ h => h.2

/-! ## The bytes that are read -/

/-- A stream brings no more bytes than are asked for. -/
theorem length_diskstreamerReadFrom {image : DiskImage} : ∀ (fuel : ℕ) {stream stream' : DiskStream}
    {total : Int} {bytes : List UInt8},
    diskstreamerReadFrom image fuel stream total = some (bytes, stream') →
    bytes.length ≤ total.toNat
  | 0, _, _, _, _, h => nomatch h
  | fuel + 1, stream, stream', total, bytes, h => by
    have hlt := Int.tmod_lt_of_pos stream.pos (show (0 : Int) < (sectorSize : ℕ) by decide)
    simp only [diskstreamerReadFrom] at h
    generalize stream.pos.tmod (sectorSize : ℕ) = offset at h hlt
    split_ifs at h with hover hneg hneg
    · obtain ⟨⟨rest, s⟩, hrest, he⟩ := Option.map_eq_some_iff.mp h
      obtain ⟨rfl, rfl⟩ := Prod.mk.inj he
      have hlen := length_diskstreamerReadFrom fuel hrest
      rw [List.length_append, List.length_map, List.length_range]
      dsimp only at hlen ⊢
      omega
    · obtain ⟨rfl, rfl⟩ := Prod.mk.inj (Option.some.inj h)
      rw [List.length_map, List.length_range]

/-- Neither does a read of a file, however many clusters it goes through. -/
theorem length_fat16ReadInternalFromStream {image : DiskImage} {q : FatPrivate} :
    ∀ (fuel : ℕ) {cluster offset total res : Int} {bytes : List UInt8},
    fat16ReadInternalFromStream image q fuel cluster offset total = some (res, bytes) →
    bytes.length ≤ total.toNat
  | 0, _, _, _, _, _, h => nomatch h
  | fuel + 1, cluster, offset, total, res, bytes, h => by
    have hsize := sizeOfClusterBytes_nonneg q
    simp only [fat16ReadInternalFromStream, Option.bind_eq_bind, Option.bind_eq_some_iff] at h
    obtain ⟨c, -, h⟩ := h
    by_cases hneg : c < 0
    · rw [if_pos hneg] at h
      cases Option.some.inj h
      exact Nat.zero_le _
    rw [if_neg hneg, Option.bind_eq_some_iff] at h
    obtain ⟨first, hfirst, h⟩ := h
    have hlen := length_diskstreamerReadFrom _ hfirst
    by_cases htotal : sizeOfClusterBytes q < total
    · rw [if_pos htotal] at hlen h
      rw [if_pos (by omega), Option.bind_eq_some_iff] at h
      obtain ⟨rest, hrest, h⟩ := h
      cases Option.some.inj h
      have ih := length_fat16ReadInternalFromStream fuel hrest
      rw [List.length_append]
      omega
    · rw [if_neg htotal] at hlen h
      rw [if_neg (by omega)] at h
      cases Option.some.inj h
      exact hlen

/-- `fread` of one item stores where nothing has to be kept. -/
theorem fread_keepsBytes (h : k₀.KeepsBytes k)
    (hout : ptr ≠ 0 → ∀ j < size, ¬k₀.Covered (ptr + j)) :
    Meets False (fread ptr size 1 fd) k fun _ k' => k₀.KeepsBytes k' := by
  rw [fread, Meets.ite_iff]
  refine ⟨fun _ => Meets.pure_iff.mpr h, fun _ => ?_⟩
  refine Meets.bind_iff.mpr (.of_run_eq (fileGetDescriptor_eq fd k) ?_)
  cases k.openFile fd with
  | none => exact Meets.pure_iff.mpr h
  | some desc =>
    cases hu : desc.privateData.item.union with
    | null => simp [fat16Read, FatItem.entry, hu]
    | directory a d => simp [fat16Read, FatItem.entry, hu]
    | item a entry =>
      simp only [fat16Read, FatItem.entry, hu, fat16ReadLoop, Meets.bind_iff, Meets.pure_iff,
        Meets.ite_iff, fsPrivate_iff, Meets.get_iff, defined_iff, storeBytes_iff]
      refine ⟨fun q _ => ⟨fun r hread => ?_, fun _ => not_false⟩, fun _ => not_false⟩
      obtain ⟨res, bytes⟩ := r
      have hlen : bytes.length ≤ size := by
        have := length_fat16ReadInternalFromStream _ hread
        unfold asSigned at this
        omega
      refine ⟨fun _ => not_false, fun hstore => ?_⟩
      have hk₁ : k₀.KeepsBytes (k.withBytes ptr bytes) := h.withBytes fun j hj => by
        refine hout (fun h0 => hstore ⟨h0, ?_⟩) j (by omega)
        rintro rfl
        exact absurd hj (Nat.not_lt_zero j)
      exact ⟨fun _ => ⟨fun _ => hk₁, fun _ => hk₁⟩, fun _ => ⟨fun _ => hk₁, fun _ => hk₁⟩⟩

/-! ## The data of a process -/

/-- The file is read to a buffer of its own size. -/
theorem elfRead_keepsBytes : Meets False (elfRead self fd) k fun _ k' => k.KeepsBytes k' := by
  refine .bind (Q := fun _ k' => k = k') (Meets.self.mono fun _ k' he => ?_) ?_
  · exact ((fstat_unchanged (v := id)) _ _ _ he).symm
  · rintro ⟨res, stat⟩ _ rfl
    simp only [Meets.ite_iff, Meets.bind_iff, Meets.pure_iff, Meets.fault_iff]
    refine ⟨fun _ => .refl k, fun _ => ⟨fun _ => not_false, fun _ => ?_⟩⟩
    refine Kernel.kzalloc_rule ?_ fun b hb => ?_
    · refine (fread_keepsBytes (.refl k) fun h => absurd rfl h).mono fun res k₁ h₁ => ?_
      exact ⟨fun _ => h₁, fun _ => ⟨fun _ => not_false, fun _ => h₁⟩⟩
    · refine (fread_keepsBytes (.allocated hb) fun _ j hj => hb.not_covered hj).mono
        fun res k₁ h₁ => ?_
      exact ⟨fun _ => h₁, fun _ => ⟨fun _ => not_false, fun _ => h₁⟩⟩

/-- The checks of an ELF file write nothing. -/
theorem elfLoadOpened_keepsBytes :
    Meets False (elfLoadOpened self fd) k fun _ k' => k.KeepsBytes k' := by
  refine .bind elfRead_keepsBytes fun read k₁ h₁ => ?_
  cases read with
  | error res => exact Meets.pure_iff.mpr h₁
  | ok bn =>
    simp only [Meets.bind_iff, Meets.get_iff, Meets.ite_iff, Meets.pure_iff]
    exact ⟨fun _ => h₁, fun _ => h₁⟩

/-- `fclose` takes no block that was taken before the file was opened. -/
theorem elfLoad_keepsBytes (hg : Guarded k.table) :
    Meets False (elfLoad filename) k fun _ k' => k.KeepsBytes k' := by
  have hclose {α : Type} {fd : Int} {x : α} {k₁ : Kernel} (h₁ : k.KeepsBytes k₁) :
      Meets False (do
        let _ ← fclose fd
        return x) k₁ fun _ k' => ∃ k₁, k.KeepsBytes k₁ ∧ k'.mem = k₁.mem :=
    .bind Meets.self fun _ k₂ he => Meets.pure_iff.mpr ⟨k₁, h₁, fclose_mem _ _ _ he⟩
  have hmem : Meets False (elfLoad filename) k fun _ k' =>
      ∃ k₁, k.KeepsBytes k₁ ∧ k'.mem = k₁.mem := by
    rw [elfLoad, Meets.bind_iff]
    refine (Kernel.Frame.keepsBytes hg).kzalloc ⟨fun _ => .refl k, .refl k⟩ fun self k₁ h₁ _ => ?_
    refine .bind (fopen_keepsBytes ((h₁.1 hg).keeps.guarded hg)) fun fd k₂ h₂ => ?_
    have h₂ := h₁.2.trans h₂
    refine Meets.ite_iff.mpr ⟨fun _ => hclose h₂, fun _ => ?_⟩
    exact .bind elfLoadOpened_keepsBytes fun _ k₃ h₃ => hclose (h₂.trans h₃)
  refine ((elfLoad_grows hg).and hmem).mono fun _ k' h => ?_
  obtain ⟨⟨hgrows, _⟩, k₁, h₁, hm⟩ := h
  exact h₁.of_mem (hgrows.heap hg).keeps hm

/-- Loading an ELF file leaves the bytes of the taken blocks, accepted or not. -/
theorem processLoadElf_keepsBytes (hg : Guarded k.table) :
    Meets False (processLoadElf filename process) k fun _ k' => k.KeepsBytes k' := by
  refine .bind (elfLoad_keepsBytes hg) fun r k₁ h₁ => ?_
  refine Meets.ite_iff.mpr ⟨fun _ => Meets.pure_iff.mpr h₁, fun _ => ?_⟩
  refine Meets.bind_iff.mpr (defined_iff.mpr ⟨fun file _ => ?_, fun _ => not_false⟩)
  exact .bind (KeepsBytes.modifyProcess.meets _) fun _ _ h₂ => Meets.pure_iff.mpr (h₁.trans h₂)

/-- A flat program is read to a buffer of its own size as well. -/
theorem processLoadBinaryOpened_keepsBytes :
    Meets False (processLoadBinaryOpened process fd) k fun _ k' => k.KeepsBytes k' := by
  refine .bind (Q := fun _ k' => k = k') (Meets.self.mono fun _ k' he => ?_) ?_
  · exact ((fstat_unchanged (v := id)) _ _ _ he).symm
  · rintro ⟨res, stat⟩ _ rfl
    simp only [Meets.ite_iff, Meets.bind_iff, Meets.pure_iff]
    refine ⟨fun _ => .refl k, fun _ => ?_⟩
    refine Kernel.kzalloc_rule ⟨fun _ => .refl k, fun h => absurd rfl h⟩ fun b hb => ?_
    refine ⟨fun _ => .allocated hb, fun _ => ?_⟩
    refine (fread_keepsBytes (.allocated hb) fun _ j hj => hb.not_covered hj).mono
      fun res k₁ h₁ => ⟨fun _ => h₁, fun _ => ?_⟩
    exact (KeepsBytes.modifyProcess.meets _).mono fun _ _ h₂ => h₁.trans h₂

section Load

variable (hg : Guarded k.table) (hf : ¬k.Fresh process) (hp0 : process ≠ 0)
  (hp : k.store process = some (.process p))

include hg hf hp0 hp

/-- Loading a flat program leaves the bytes of the taken blocks. -/
theorem processLoadBinary_keepsBytes :
    Meets False (processLoadBinary filename process) k fun _ k' => k.KeepsBytes k' := by
  have hclose {fd res : Int} {k₁ : Kernel} (h₁ : k.KeepsBytes k₁) :
      Meets False (do
        let _ ← fclose fd
        return res) k₁ fun _ k' => ∃ k₁, k.KeepsBytes k₁ ∧ k'.mem = k₁.mem :=
    .bind Meets.self fun _ k₂ he => Meets.pure_iff.mpr ⟨k₁, h₁, fclose_mem _ _ _ he⟩
  have hmem : Meets False (processLoadBinary filename process) k fun _ k' =>
      ∃ k₁, k.KeepsBytes k₁ ∧ k'.mem = k₁.mem := by
    refine .bind (fopen_keepsBytes hg) fun fd k₁ h₁ => ?_
    refine Meets.ite_iff.mpr ⟨fun _ => hclose h₁, fun _ => ?_⟩
    exact .bind processLoadBinaryOpened_keepsBytes fun _ k₂ h₂ => hclose (h₁.trans h₂)
  refine ((processLoadBinary_meets hg hf hp0 hp).and hmem).mono ?_
  rintro _ k' ⟨⟨-, hgrows⟩ | ⟨-, p', hdata⟩, k₁, h₁, hm⟩
  · exact h₁.of_mem (hgrows.heap hg).keeps hm
  · exact h₁.of_mem hdata.ext.keeps hm

/-- So does loading a program of either kind. -/
theorem processLoadData_keepsBytes :
    Meets False (processLoadData filename process) k fun _ k' => k.KeepsBytes k' := by
  refine .bind ((processLoadElf_meets hg hf hp0 hp).and (processLoadElf_keepsBytes hg)) ?_
  rintro res k₁ ⟨hcases, h₁⟩
  refine Meets.ite_iff.mpr ⟨fun he => ?_, fun _ => Meets.pure_iff.mpr h₁⟩
  rcases hcases with ⟨-, hgrows⟩ | ⟨hz, -⟩
  · have hext := hgrows.heap hg
    exact (processLoadBinary_keepsBytes (hgrows.guarded hg) (fun h => hf (hext.fresh h)) hp0
      ((hext.store _ hp0 hf).trans hp)).mono fun _ _ h₂ => h₁.trans h₂
  · rw [hz] at he
    cases he

end Load

/-! ## The process -/

/-- A load that succeeds leaves every byte of the blocks that were taken before it. -/
theorem processLoadForSlot_keepsBytes (hg : Guarded k.table) :
    Meets False (processLoadForSlot filename slot) k fun x k' => x.1 = 0 → k.KeepsBytes k' := by
  have hget : Meets False (processGet slot) k fun _ k' => k = k' := by
    simp only [processGet, Meets.bind_iff, Meets.get_iff, Meets.ite_iff, Meets.pure_iff,
      implies_true, and_self]
  refine .bind hget ?_
  rintro taken _ rfl
  refine Meets.ite_iff.mpr ⟨fun _ => Meets.pure_iff.mpr fun h => absurd h (by decide),
    fun _ => ?_⟩
  refine Meets.bind_iff.mpr (Kernel.kzalloc_rule ?_ fun b hb => ?_)
  · refine Meets.ite_iff.mpr ⟨fun _ => ?_, fun h => absurd rfl h⟩
    exact Meets.pure_iff.mpr fun h => absurd h (by decide)
  refine Meets.ite_iff.mpr ⟨fun h => absurd h (blockAddr_pos b), fun _ => ?_⟩
  rw [Meets.bind_iff, Kernel.putObj_meets, if_neg (blockAddr_pos b)]
  set k₁ := (k.allocated b 9364).put (blockAddr b) (.process Process.zero) with hk₁
  have hself : k₁.Owns (blockAddr b) (requestBlocks 9364) := hb.owns (by decide)
  have hg₁ : Guarded k₁.table := hb.ext.keeps.guarded hg
  have hstore : k₁.store (blockAddr b) = some (.process Process.zero) := Kernel.put_store_self _ _ _
  have h₁ : k.KeepsBytes k₁ := (Kernel.KeepsBytes.allocated hb).trans (.of_eq rfl rfl)
  have hdata : Meets False (processLoadData filename (blockAddr b)) k₁ _ :=
    (processLoadData_meets hg₁ hself.not_fresh (blockAddr_pos b) hstore).and
      (processLoadData_keepsBytes hg₁ hself.not_fresh (blockAddr_pos b) hstore)
  refine .bind hdata ?_
  rintro res k₂ ⟨⟨hneg, -⟩ | ⟨rfl, p, hloaded⟩, h₂⟩
  · rw [if_pos hneg, Meets.pure_iff]
    exact fun hres => absurd hneg (not_lt.mpr hres.ge)
  · rw [if_neg (lt_irrefl 0)]
    have hp := hloaded.ext
    rw [hk₁, Kernel.put_put] at hp
    have hstore₂ : k₂.store (blockAddr b) = some (.process p) := by
      rw [hp.store _ (blockAddr_pos b) hself.not_fresh, Kernel.put_store_self]
    refine (processLoadTask_meets (c := 0) (hp.owns hself).not_fresh (blockAddr_pos b) hstore₂
      hloaded.data.typed False.elim).mono ?_
    rintro x k₃ (⟨rfl, -⟩ | ⟨hneg, -⟩ | ⟨-, -, p', t, d, f, e, hload⟩) hres
    · exact absurd hres (by decide)
    · exact absurd hneg (not_lt.mpr hres.ge)
    · exact (h₁.trans h₂).trans hload.bytes

/-- A load that succeeds stores to blocks that were free. -/
theorem processLoadSwitch_keepsBytes (hg : Guarded k.table) :
    Meets False (processLoadSwitch filename) k fun x k' => x.1 = 0 → k.KeepsBytes k' := by
  have hload : Meets False (processLoad filename) k fun x k' => x.1 = 0 → k.KeepsBytes k' := by
    rw [processLoad, Meets.bind_iff, Meets.get_iff, Meets.ite_iff]
    refine ⟨fun _ => Meets.pure_iff.mpr fun h => absurd h (by decide), fun hslot => ?_⟩
    obtain ⟨slot, hslot⟩ := Int.eq_ofNat_of_zero_le (not_lt.mp hslot)
    rw [hslot, Int.toNat_natCast]
    exact processLoadForSlot_keepsBytes hg
  refine .bind hload fun x k₁ h₁ => ?_
  simp only [Meets.bind_iff, Meets.ite_iff, Meets.pure_iff, processSwitch, Meets.modify_iff]
  exact ⟨fun hres _ => (h₁ hres).trans (.of_eq rfl rfl), fun hne h => absurd h hne⟩

end Hyperion
