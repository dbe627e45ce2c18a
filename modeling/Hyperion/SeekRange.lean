import Hyperion.FileCursor

/-!
# The range of a file's position

`fat16_seek` compares the offset that it is given with the size of the file, also when it
adds it to the position. So a run of `fseek` and `fread` keeps the position inside the file
exactly if no relative seek leaves it (`seek_runs_inside_iff`).

`seekOutcome` is the status of a seek and the position after it, as the source computes them on
32-bit words, and `fseek_run` ties it to the call on a descriptor. A seek that fails keeps the
position, and a seek from the beginning that is accepted is inside the file
(`seekOutcome_le_iff`). A read never moves the position (`fread_filePosition`), so that seeks are
all that counts. In a file of two bytes three steps of one byte lead out of it
(`seek_runs_not_all_inside`).
-/

namespace Hyperion

open Partial

/-! ## Positions -/

/-- The position in the regular file open behind `fd`, and the size of the file. -/
def Kernel.filePosition (k : Kernel) (fd : Int) : Option (ℕ × ℕ) := do
  let desc ← k.openFile fd
  match desc.privateData.item.type, desc.privateData.item.union with
  | .file, .item _ entry =>
    if itemIsSubdirectory entry then none
    else some (desc.privateData.pos, itemFilesize entry)
  | _, _ => none

/-- The status of `fat16_seek` and the position after it. -/
def seekOutcome (pos size offset : ℕ) (whence : FileSeekMode) : Int × ℕ :=
  if size ≤ offset then (- EIO, pos)
  else match whence with
    | .seekSet => (0, offset)
    | .seekEnd => (-EUNIMP, pos)
    | .seekCur => (0, (pos + offset) % 4294967296)
    | .other => (-EINVARG, pos)

/-- A call leaves the position inside the file, and an `fseek` that fails leaves it. -/
structure PositionKept (fd : Int) (k : Kernel) (call : FileCall × Int) (k' : Kernel) : Prop where
  inside : ∃ pos size, k'.filePosition fd = some (pos, size) ∧ pos ≤ size
  failed : ∀ offset whence, call.1 = .fseek offset whence → call.2 < 0 →
    k'.filePosition fd = k.filePosition fd

/-- A relative seek that is accepted does not leave the file. -/
def StaysInside (fd : Int) (k : Kernel) : FileCall → Prop
  | .fseek offset .seekCur => ∀ pos size, k.filePosition fd = some (pos, size) →
    asUnsigned offset < size → (pos + asUnsigned offset) % 4294967296 ≤ size
  | _ => True

/-- A seek that fails keeps the position. -/
theorem seekOutcome_failed {pos size offset : ℕ} {whence : FileSeekMode}
    (h : (seekOutcome pos size offset whence).1 < 0) :
    (seekOutcome pos size offset whence).2 = pos := by
  unfold seekOutcome at h ⊢
  split_ifs at h ⊢
  · rfl
  · cases whence with
    | seekSet => exact absurd h (lt_irrefl _)
    | seekCur => exact absurd h (lt_irrefl _)
    | seekEnd => rfl
    | other => rfl

/-- Of the seeks that are accepted only a relative one can leave the file. -/
theorem seekOutcome_le_iff {pos size offset : ℕ} {whence : FileSeekMode} (hle : pos ≤ size) :
    (seekOutcome pos size offset whence).2 ≤ size ↔
      (whence = .seekCur → offset < size → (pos + offset) % 4294967296 ≤ size) := by
  unfold seekOutcome
  split_ifs with hoffset
  · exact iff_of_true hle fun _ hlt => absurd hlt (not_lt.mpr hoffset)
  · cases whence with
    | seekSet => exact iff_of_true (le_of_lt (not_le.mp hoffset)) fun h => nomatch h
    | seekCur => exact ⟨fun h _ _ => h, fun h => h rfl (not_le.mp hoffset)⟩
    | seekEnd => exact iff_of_true hle fun h => nomatch h
    | other => exact iff_of_true hle fun h => nomatch h

section Calls

variable {k k' : Kernel} {fd : Int} {pos size : ℕ}

theorem Kernel.filePosition_eq_some : k.filePosition fd = some (pos, size) ↔
    ∃ desc a entry, k.openFile fd = some desc ∧ desc.privateData.item.type = .file ∧
      desc.privateData.item.union = .item a entry ∧ itemIsSubdirectory entry = false ∧
      desc.privateData.pos = pos ∧ itemFilesize entry = size := by
  constructor
  · intro h
    obtain ⟨desc, hd, h⟩ := Option.bind_eq_some_iff.mp h
    split at h
    · rename_i a entry htype hunion
      split_ifs at h with hsub
      obtain ⟨rfl, rfl⟩ := Prod.mk.inj (Option.some.inj h)
      exact ⟨desc, a, entry, hd, htype, hunion, Bool.eq_false_iff.mpr hsub, rfl, rfl⟩
    · cases h
  · rintro ⟨desc, a, entry, hd, htype, hunion, hsub, rfl, rfl⟩
    simp [Kernel.filePosition, hd, htype, hunion, hsub]

/-- `fseek` on a regular file. -/
theorem fseek_run (offset : Int) (whence : FileSeekMode)
    (h : k.filePosition fd = some (pos, size)) :
    ∃ k', fseek fd offset whence k =
        some ((seekOutcome pos size (asUnsigned offset) whence).1, k') ∧
      k'.filePosition fd = some ((seekOutcome pos size (asUnsigned offset) whence).2, size) := by
  obtain ⟨desc, a, entry, hd, htype, hunion, hsub, rfl, rfl⟩ := Kernel.filePosition_eq_some.mp h
  have hafter (pos' : ℕ) : (k.withFile fd { desc with
      privateData := { desc.privateData with pos := pos' } }).filePosition fd =
        some (pos', itemFilesize entry) :=
    Kernel.filePosition_eq_some.mpr
      ⟨_, a, entry, Kernel.openFile_withFile hd, htype, hunion, hsub, rfl, rfl⟩
  refine ⟨_, ?_, hafter _⟩
  have hfile : fat16Seek desc.privateData (asUnsigned offset) whence k =
      some (((seekOutcome desc.privateData.pos (itemFilesize entry) (asUnsigned offset) whence).1,
        { desc.privateData with
          pos := (seekOutcome desc.privateData.pos (itemFilesize entry) (asUnsigned offset)
            whence).2 }), k) := by
    simp only [fat16Seek, htype, FatItem.entry, hunion, seekOutcome, ne_eq, not_true_eq_false,
      if_false, pure_bind]
    split_ifs
    · rfl
    · cases whence <;> rfl
  simp only [fseek, run_bind, fileGetDescriptor_eq, hd, Option.bind_some, hfile]
  rfl

/-- `fread` leaves the position where it is. -/
theorem fread_filePosition {ptr size nmemb : ℕ} {res : Int} (hn : nmemb < 4294967296)
    (h : fread ptr size nmemb fd k = some (res, k')) :
    k'.filePosition fd = k.filePosition fd := by
  obtain ⟨⟨m, rfl⟩, -⟩ := (fread_meets hn).of_eq h
  rfl

/-- A call keeps the position inside the file exactly if it does not seek out of it. -/
theorem FileStep.positionKept_iff {call : FileCall × Int} (hs : FileStep fd k call k')
    (h : k.filePosition fd = some (pos, size)) (hle : pos ≤ size) :
    PositionKept fd k call k' ↔ StaysInside fd k call.1 := by
  cases hs with
  | fseek hs =>
    rename_i offset whence res
    obtain ⟨t, hrun, hafter⟩ := fseek_run offset whence h
    rw [hrun] at hs
    obtain ⟨rfl, rfl⟩ := Prod.mk.inj (Option.some.inj hs)
    have hinside : PositionKept fd k
        (.fseek offset whence, (seekOutcome pos size (asUnsigned offset) whence).1) t ↔
        (seekOutcome pos size (asUnsigned offset) whence).2 ≤ size := by
      constructor
      · rintro ⟨⟨pos', size', hafter', hle'⟩, -⟩
        rw [hafter] at hafter'
        obtain ⟨rfl, rfl⟩ := Prod.mk.inj (Option.some.inj hafter')
        exact hle'
      · refine fun hle' => ⟨⟨_, _, hafter, hle'⟩, fun _ _ _ hneg => ?_⟩
        rw [hafter, h, seekOutcome_failed hneg]
    rw [hinside, seekOutcome_le_iff hle]
    cases whence with
    | seekCur =>
      refine ⟨fun hstay pos' size' h' => ?_, fun hstay _ => hstay _ _ h⟩
      rw [h] at h'
      obtain ⟨rfl, rfl⟩ := Prod.mk.inj (Option.some.inj h')
      exact hstay rfl
    | seekSet => exact iff_of_true (fun h => nomatch h) trivial
    | seekEnd => exact iff_of_true (fun h => nomatch h) trivial
    | other => exact iff_of_true (fun h => nomatch h) trivial
  | fread _ _ hn hs =>
    have hsame := fread_filePosition hn hs
    exact iff_of_true ⟨⟨pos, size, hsame.trans h, hle⟩, fun _ _ hc => nomatch hc⟩ trivial

/-! ## Opening -/

variable {path mode : List UInt8}

/-- A new descriptor stands at the beginning. -/
theorem fat16Open_pos (parts : List (List UInt8)) (m : FileMode) (k : Kernel) :
    Meets False (fat16Open parts m) k fun res _ => ∀ d, res = .ok d → d.pos = 0 := by
  rw [fat16Open, Meets.ite_iff]
  refine ⟨fun _ => Meets.pure_iff.mpr fun _ h => (nomatch h), fun _ => ?_⟩
  refine .bind .self fun descriptor k₁ _ => Meets.ite_iff.mpr
    ⟨fun _ => Meets.pure_iff.mpr fun _ h => (nomatch h), fun _ => ?_⟩
  refine .bind .self fun item k₂ _ => ?_
  cases item with
  | none => exact Meets.pure_iff.mpr fun _ h => (nomatch h)
  | some item =>
    refine Meets.pure_iff.mpr fun d hd => ?_
    obtain rfl := Except.ok.inj hd
    rfl

/-- The descriptor goes into the slot that its number says. -/
theorem fileNewDescriptorLoop_slot (d : FatFileDescriptor) : ∀ (fuel i : ℕ) (k : Kernel),
    i + fuel = maxFileDescriptors → Meets False (fileNewDescriptorLoop d fuel i) k fun res k' =>
      0 ≤ res → ∃ desc, k'.openFile res = some desc ∧ desc.privateData = d
  | 0, _, _, _ => Meets.pure_iff.mpr fun h => absurd h (by decide)
  | fuel + 1, i, k, hi => by
    simp only [fileNewDescriptorLoop, Meets.bind_iff, Meets.get_iff, Meets.ite_iff]
    refine ⟨fun _ => Meets.self.mono fun self k₁ _ => ?_, fun _ =>
      fileNewDescriptorLoop_slot d fuel (i + 1) k (by omega)⟩
    simp only [Meets.fault_iff, setFileDescriptor_iff, Meets.pure_iff]
    refine ⟨fun _ => not_false, fun _ _ => ⟨⟨self, i + 1, d⟩, ?_, rfl⟩⟩
    rw [Kernel.openFile, if_neg (by omega)]
    exact if_pos (by omega)

theorem fopen_position : Meets False (fopen path mode) k fun fd k' =>
    0 < fd → ∃ desc, k'.openFile fd = some desc ∧ desc.privateData.pos = 0 := by
  have hfail (k' : Kernel) : Meets False (pure 0 : KernelM Int) k' fun fd k' =>
      0 < fd → ∃ desc, k'.openFile fd = some desc ∧ desc.privateData.pos = 0 :=
    Meets.pure_iff.mpr fun h => absurd h (lt_irrefl _)
  refine .bind .self fun root k₁ _ => ?_
  cases root with
  | none => exact hfail k₁
  | some root =>
    simp only [Meets.ite_iff, Meets.bind_iff, Meets.get_iff]
    refine ⟨fun _ => hfail k₁, fun _ => ⟨fun _ => hfail k₁, fun _ => ⟨fun _ => hfail k₁,
      fun _ => ⟨fun _ => hfail k₁, fun _ => ?_⟩⟩⟩⟩
    refine (fat16Open_pos _ _ k₁).mono fun res k₂ hres => ?_
    cases res with
    | error e => exact hfail k₂
    | ok d =>
      refine .bind (fileNewDescriptorLoop_slot d _ 0 k₂ (by simp)) fun res k₃ hslot => ?_
      refine Meets.ite_iff.mpr ⟨fun _ => hfail k₃, fun hres' => Meets.pure_iff.mpr fun _ => ?_⟩
      obtain ⟨desc, hopen, rfl⟩ := hslot (not_lt.mp hres')
      exact ⟨desc, hopen, hres _ rfl⟩

end Calls

/-! ## Runs -/

/-- In a run of `fseek` and `fread` on a regular file that `fopen` has opened the position
is inside the file after every call, and not moved by a seek that fails, exactly if no
relative seek leaves the file. -/
theorem seek_runs_inside_iff {path mode : List UInt8} {fd : Int} {k₀ k u : Kernel}
    {tr : List (Kernel × (FileCall × Int) × Kernel)} (hopen : fopen path mode k₀ = some (fd, k))
    (hfd : 0 < fd) (hregular : (k.filePosition fd).isSome) (h : Trace (FileStep fd) k tr u) :
    (∀ x ∈ tr, PositionKept fd x.1 x.2.1 x.2.2) ↔ ∀ x ∈ tr, StaysInside fd x.1 x.2.1.1 := by
  obtain ⟨⟨pos, size⟩, hpos⟩ := Option.isSome_iff_exists.mp hregular
  obtain ⟨desc, hdesc, hzero⟩ := fopen_position.of_eq hopen hfd
  obtain ⟨desc', _, _, hdesc', -, -, -, hpos', -⟩ := Kernel.filePosition_eq_some.mp hpos
  obtain rfl : desc = desc' := Option.some.inj (hdesc.symm.trans hdesc')
  refine h.forall_iff (I := fun k => ∃ pos size, k.filePosition fd = some (pos, size) ∧ pos ≤ size)
    (P := fun k call k' => PositionKept fd k call k') (C := fun k call _ => StaysInside fd k call.1)
    ⟨pos, size, hpos, by omega⟩ ?_ ?_
  · rintro k call k' hs hstay ⟨pos, size, hp, hle⟩
    exact ((hs.positionKept_iff hp hle).mpr hstay).inside
  · rintro k call k' hs ⟨pos, size, hp, hle⟩
    exact hs.positionKept_iff hp hle

/-! ## A file of two bytes -/

/-- The file of two bytes is open at its beginning. -/
theorem openSmallFile_position : ∃ k₀ k, fopen smallPath [114] k₀ = some (1, k) ∧
    k.filePosition 1 = some (0, 2) := by
  have h : (openSmallFile.map fun x => (x.1, x.2.filePosition 1)) = some (1, some (0, 2)) := by
    decide +kernel
  obtain ⟨⟨fd, k⟩, hk, hfd⟩ := Option.map_eq_some_iff.mp h
  obtain ⟨rfl, hpos⟩ := Prod.mk.inj hfd
  obtain ⟨_, k₀, -, hopen⟩ := bind_eq_some.mp hk
  exact ⟨k₀, k, hopen, hpos⟩

/-- A relative seek by one byte. -/
theorem fseek_one {k : Kernel} {pos : ℕ} (h : k.filePosition 1 = some (pos, 2))
    (hpos : pos < 4) : ∃ k', FileStep 1 k (.fseek 1 .seekCur, 0) k' ∧
      k'.filePosition 1 = some (pos + 1, 2) := by
  obtain ⟨k', hrun, hafter⟩ := fseek_run 1 .seekCur h
  refine ⟨k', .fseek hrun, hafter.trans ?_⟩
  rw [seekOutcome, if_neg (by decide), Nat.mod_eq_of_lt (by unfold asUnsigned; omega)]
  rfl

/-- Two steps from the beginning stay inside. -/
theorem seek_run_inside_end : ∃ k₀ k k₁ k₂, fopen smallPath [114] k₀ = some (1, k) ∧
    Trace (FileStep 1) k [(k, (.fseek 1 .seekCur, 0), k₁), (k₁, (.fseek 1 .seekCur, 0), k₂)] k₂ ∧
    k₂.filePosition 1 = some (2, 2) ∧ PositionKept 1 k (.fseek 1 .seekCur, 0) k₁ ∧
    PositionKept 1 k₁ (.fseek 1 .seekCur, 0) k₂ := by
  obtain ⟨k₀, k, hopen, hpos⟩ := openSmallFile_position
  obtain ⟨k₁, hstep₁, hpos₁⟩ := fseek_one hpos (by decide)
  obtain ⟨k₂, hstep₂, hpos₂⟩ := fseek_one hpos₁ (by decide)
  have hrun := Trace.cons hstep₁ (.cons hstep₂ (.nil k₂))
  have hstays {k : Kernel} {pos : ℕ} (h : k.filePosition 1 = some (pos, 2)) (hpos : pos ≤ 1) :
      StaysInside 1 k (.fseek 1 .seekCur) := by
    simp only [StaysInside, h, Option.some.injEq, Prod.mk.injEq]
    rintro _ _ ⟨rfl, rfl⟩ _
    have hone : asUnsigned 1 = 1 := by decide
    omega
  have hkept := (seek_runs_inside_iff hopen (by decide) (by rw [hpos]; rfl) hrun).mpr fun x hx => by
    simp only [List.mem_cons, List.not_mem_nil, or_false] at hx
    rcases hx with rfl | rfl
    · exact hstays hpos (by decide)
    · exact hstays hpos₁ (by decide)
  exact ⟨k₀, k, k₁, k₂, hopen, hrun, hpos₂, hkept _ List.mem_cons_self,
    hkept _ (List.mem_cons_of_mem _ List.mem_cons_self)⟩

/-- The third step leads out of the file. -/
theorem seek_runs_not_all_inside : ¬∀ (path mode : List UInt8) (fd : Int) (k₀ k u : Kernel)
    (tr : List (Kernel × (FileCall × Int) × Kernel)), fopen path mode k₀ = some (fd, k) →
    0 < fd → (k.filePosition fd).isSome → Trace (FileStep fd) k tr u →
    ∀ x ∈ tr, PositionKept fd x.1 x.2.1 x.2.2 := by
  intro hall
  obtain ⟨k₀, k, hopen, hpos⟩ := openSmallFile_position
  obtain ⟨k₁, hstep₁, hpos₁⟩ := fseek_one hpos (by decide)
  obtain ⟨k₂, hstep₂, hpos₂⟩ := fseek_one hpos₁ (by decide)
  obtain ⟨k₃, hstep₃, hpos₃⟩ := fseek_one hpos₂ (by decide)
  obtain ⟨pos, size, h, hle⟩ := (hall _ _ _ _ _ _ _ hopen (by decide) (by rw [hpos]; rfl)
    (.cons hstep₁ (.cons hstep₂ (.cons hstep₃ (.nil k₃)))) (k₂, (.fseek 1 .seekCur, 0), k₃)
    (by simp)).inside
  rw [hpos₃] at h
  obtain ⟨rfl, rfl⟩ := Prod.mk.inj (Option.some.inj h)
  omega

end Hyperion
