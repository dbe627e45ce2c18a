import Hyperion.KernelStart

/-!
# The pointer to a task that has been freed

`task_list_remove` leaves the `prev` pointer of the next task as it is, so that it still leads to
the task that has been removed. When the process of the next one ends, the word 56 bytes into
what lies there by then is overwritten. As long as no such pointer is followed, the table of
processes stays consistent in every run (`processTable_run_consistent`).

It does not in every run. Of three programs the second and the first end, and the third is loaded
twice to their blocks. The directory of the last process is then where the task of the second one
was. With the end of the first of the three copies its entry 14 becomes the task of the other one
(`FifthLoaded.thirdEnds`). The end of the last process frees the tables of its space, and that
task with them (`ThirdEnded.fifthEnds`), and a load that fails leaves something else there.

The ten steps are one lemma each, from the state before it to the one behind it. In these all
blocks are counted from `b`, the first one that is free when the run begins.
-/

namespace Hyperion

open Partial FreeRun

variable {k k₀ : Kernel} {x s y n slot a b c i q process prev next tail cur : ℕ} {p : Process}
  {t : Task} {image : DiskImage} {fp : FatPrivate} {path : List UInt8}

/-! ## Three programs are loaded -/

/-- The first program has been loaded. -/
structure OneLoaded (image : DiskImage) (fp : FatPrivate) (k : Kernel) (b : ℕ) : Prop where
  stage : Stage image fp k (fun i => b + 1045 ≤ i) (blockAddr (b + 18)) (blockAddr (b + 18))
    (slots (blockAddr b) 0 0) (blockAddr b)
  first : Lives k b (b + 3) (b + 4) 7 0 0 0

/-- The second as well. -/
structure TwoLoaded (image : DiskImage) (fp : FatPrivate) (k : Kernel) (b : ℕ) : Prop where
  stage : Stage image fp k (fun i => b + 2091 ≤ i) (blockAddr (b + 18)) (blockAddr (b + 1064))
    (slots (blockAddr b) (blockAddr (b + 1045)) 0) (blockAddr (b + 1045))
  first : Lives k b (b + 3) (b + 4) 7 0 0 (blockAddr (b + 1064))
  second : Lives k (b + 1045) (b + 1048) (b + 1049) 8 1 (blockAddr (b + 18)) 0

/-- All three. -/
structure ThreeLoaded (image : DiskImage) (fp : FatPrivate) (k : Kernel) (b : ℕ) : Prop where
  stage : Stage image fp k (fun i => b + 3130 ≤ i) (blockAddr (b + 18)) (blockAddr (b + 2103))
    (slots (blockAddr b) (blockAddr (b + 1045)) (blockAddr (b + 2091))) (blockAddr (b + 2091))
  first : Lives k b (b + 3) (b + 4) 7 0 0 (blockAddr (b + 1064))
  second : Lives k (b + 1045) (b + 1048) (b + 1049) 8 1 (blockAddr (b + 18)) (blockAddr (b + 2103))
  third : Lives k (b + 2091) (b + 2094) (b + 2095) 1 2 (blockAddr (b + 1064)) 0

/-- The first load. -/
theorem Stage.firstLoads (h : Stage image fp k (fun i => b ≤ i) 0 tail (slots 0 0 0) cur)
    (hb : b + 4161 ≤ heapTotalBlocks) (hprog : ProgramOf image fp path 7) :
    ∃ k', TableStep k (.load path 0) k' ∧ OneLoaded image fp k' b := by
  obtain ⟨k', hstep, hstage, hl, -⟩ := h.loads_behind 0 slots_zero hprog (by omega) fun h0 =>
    absurd rfl h0
  rw [if_pos rfl] at hl
  exact ⟨k', hstep, hstage.congr _ _ (fun i _ => by omega) (if_pos rfl) rfl
    fun _ _ => slots_set_zero, hl⟩

/-- The second load. -/
theorem OneLoaded.secondLoads (h : OneLoaded image fp k b) (hb : b + 4161 ≤ heapTotalBlocks)
    (hprog : ProgramOf image fp path 8) :
    ∃ k', TableStep k (.load path 0) k' ∧ TwoLoaded image fp k' b := by
  obtain ⟨k', hstep, hstage, hl, hext⟩ := h.stage.loads_behind 1 (slots_one (blockAddr_pos b)) hprog
    (by omega) fun _ => h.first.owns_task
  rw [if_neg (blockAddr_pos _)] at hl hext
  have hfirst := h.first.loaded hext
  rw [if_pos rfl] at hfirst
  exact ⟨k', hstep, hstage.congr _ _ (fun i _ => by omega) (if_neg (blockAddr_pos _)) rfl
    fun _ _ => slots_set_one, hfirst, hl⟩

/-- The third load. -/
theorem TwoLoaded.thirdLoads (h : TwoLoaded image fp k b) (hb : b + 4161 ≤ heapTotalBlocks)
    (hprog : ProgramOf image fp path 1) :
    ∃ k', TableStep k (.load path 0) k' ∧ ThreeLoaded image fp k' b := by
  obtain ⟨k', hstep, hstage, hl, hext⟩ := h.stage.loads_behind 2
    (slots_two (blockAddr_pos b) (blockAddr_pos _)) hprog (by omega) fun _ => h.second.owns_task
  rw [if_neg (blockAddr_pos _)] at hl hext
  have hfirst := h.first.loaded hext
  have hsecond := h.second.loaded hext
  rw [if_neg (blockAddr_ne (by omega))] at hfirst
  rw [if_pos rfl] at hsecond
  exact ⟨k', hstep, hstage.congr _ _ (fun i _ => by omega) (if_neg (blockAddr_pos _)) rfl
    fun _ _ => slots_set_two, hfirst, hsecond, hl⟩

/-! ## The second ends, and the first -/

/-- The second process has ended. The task of the third still leads back to where its task was. -/
structure SecondEnded (image : DiskImage) (fp : FatPrivate) (k : Kernel) (b : ℕ) : Prop where
  stage : Stage image fp k (fun i => b + 3130 ≤ i ∨ i = b + 1048 ∨ b + 1052 ≤ i ∧ i < b + 2091)
    (blockAddr (b + 18)) (blockAddr (b + 2103)) (slots (blockAddr b) 0 (blockAddr (b + 2091)))
    (blockAddr (b + 2091))
  first : Lives k b (b + 3) (b + 4) 7 0 0 (blockAddr (b + 2103))
  third : Lives k (b + 2091) (b + 2094) (b + 2095) 1 2 (blockAddr (b + 1064)) 0

/-- The first as well. -/
structure FirstEnded (image : DiskImage) (fp : FatPrivate) (k : Kernel) (b : ℕ) : Prop where
  stage : Stage image fp k (fun i => b + 3130 ≤ i ∨ i = b + 1048 ∨ (b + 1052 ≤ i ∧ i < b + 2091) ∨
      i = b + 3 ∨ b + 7 ≤ i ∧ i < b + 1045) (blockAddr (b + 2103)) (blockAddr (b + 2103))
    (slots 0 0 (blockAddr (b + 2091))) (blockAddr (b + 2091))
  third : Lives k (b + 2091) (b + 2094) (b + 2095) 1 2 (blockAddr (b + 1064)) 0

/-- The end of the second. -/
theorem ThreeLoaded.secondEnds (h : ThreeLoaded image fp k b) :
    ∃ k', TableStep k (.terminate (blockAddr (b + 1045))) k' ∧ SecondEnded image fp k' b := by
  obtain ⟨p, t, f, file, hh, hsp, hprev, -⟩ := id h.first
  obtain ⟨k', hstep, hend, hstage⟩ := h.stage.terminates h.second (by decide) rfl (by omega)
    (by omega) (by omega) (by omega) (.inr ⟨b + 18, rfl, by omega, by omega, by omega⟩)
    (fun k' hk' => Kernel.StoredTo.of_task (blockAddr_pos _)
      ((hk' (blockAddr_pos _)).trans hh.task)) (blockAddr_ne (by omega))
  -- the task of the first leads to that of the third, but not the other way
  have hfirst := hh.relinked hsp hend (by omega) fun i hi => ⟨by omega, by omega⟩
  have hthird := h.third.apart hend (fun i hi => ⟨by omega, by omega⟩) fun i hi => by
    obtain rfl := blockAddr_inj.mp hi
    exact ⟨by omega, by omega, by omega⟩
  rw [hprev] at hfirst
  exact ⟨k', hstep, hstage.congr _ _ (fun i _ => by omega) (if_neg (blockAddr_ne (by omega)))
    (if_neg (blockAddr_ne (by omega))) fun _ _ => slots_set_one, hfirst, hthird⟩

/-- The end of the first. -/
theorem SecondEnded.firstEnds (h : SecondEnded image fp k b) :
    ∃ k', TableStep k (.terminate (blockAddr b)) k' ∧ FirstEnded image fp k' b := by
  obtain ⟨k', hstep, hend, hstage⟩ := h.stage.terminates h.first (by decide) rfl (by omega)
    (by omega) (by omega) (by omega) (.inl rfl) (fun k' _ => ⟨k', Kernel.StoredTo.null rfl⟩)
    (blockAddr_ne (by omega))
  have hthird := h.third.apart hend (fun i hi => ⟨by omega, by omega⟩) fun i hi =>
    absurd hi.symm (blockAddr_pos i)
  exact ⟨k', hstep, hstage.congr _ _ (fun i _ => by omega) (if_pos rfl)
    (if_neg (blockAddr_ne (by omega))) fun _ _ => slots_set_zero, hthird⟩

/-! ## The third is loaded twice more -/

/-- A copy of the third program has been loaded to the blocks of the first. -/
structure FourthLoaded (image : DiskImage) (fp : FatPrivate) (k : Kernel) (b : ℕ) : Prop where
  stage : Stage image fp k (fun i => b + 3130 ≤ i ∨ i = b + 1048 ∨ b + 1052 ≤ i ∧ i < b + 2091)
    (blockAddr (b + 2103)) (blockAddr (b + 18)) (slots (blockAddr (b + 7)) 0 (blockAddr (b + 2091)))
    (blockAddr (b + 7))
  third : Lives k (b + 2091) (b + 2094) (b + 2095) 1 2 (blockAddr (b + 1064)) (blockAddr (b + 18))
  fourth : Lives k (b + 7) (b + 3) (b + 10) 1 0 (blockAddr (b + 2103)) 0

/-- Another one to those of the second, with its directory where the task was. -/
structure FifthLoaded (image : DiskImage) (fp : FatPrivate) (k : Kernel) (b : ℕ) : Prop where
  stage : Stage image fp k (fun i => b + 3130 ≤ i ∨ i = b + 2090) (blockAddr (b + 2103))
    (blockAddr (b + 1063))
    (slots (blockAddr (b + 7)) (blockAddr (b + 1052)) (blockAddr (b + 2091))) (blockAddr (b + 1052))
  third : Lives k (b + 2091) (b + 2094) (b + 2095) 1 2 (blockAddr (b + 1064)) (blockAddr (b + 18))
  fourth : Lives k (b + 7) (b + 3) (b + 10) 1 0 (blockAddr (b + 2103)) (blockAddr (b + 1063))
  fifth : Lives k (b + 1052) (b + 1048) (b + 1055) 1 1 (blockAddr (b + 18)) 0

/-- The fourth load. -/
theorem FirstEnded.fourthLoads (h : FirstEnded image fp k b) (hb : b + 4161 ≤ heapTotalBlocks)
    (hprog : ProgramOf image fp path 1) :
    ∃ k', TableStep k (.load path 0) k' ∧ FourthLoaded image fp k' b := by
  have hplace : Place (fun i => b + 3130 ≤ i ∨ i = b + 1048 ∨ (b + 1052 ≤ i ∧ i < b + 2091) ∨
      i = b + 3 ∨ b + 7 ≤ i ∧ i < b + 1045) heapTotalBlocks (b + 7) (b + 3) (b + 10) (b + 1045) :=
    ⟨fun i hi hi' => by omega, by omega, by omega, fun i hi hSi => by omega, fun i hi _ => by omega,
      by omega, by omega, by omega, b + 3130, by omega, by omega, fun i hi _ => by omega⟩
  obtain ⟨k', hstep, hstage, hl, hext⟩ := h.stage.loads 0 (b + 7) (b + 3) (b + 10) (b + 1045)
    slots_zero hprog hplace (by omega) fun _ => h.third.owns_task
  rw [if_neg (blockAddr_pos _)] at hl hext
  have hthird := h.third.loaded hext
  rw [if_pos rfl] at hthird
  refine ⟨k', hstep, hstage.congr _ _ (fun i _ => ?_) (if_neg (blockAddr_pos _)) rfl
    fun _ _ => slots_set_zero, hthird, hl⟩
  unfold Place.rest
  omega

/-- The fifth load. -/
theorem FourthLoaded.fifthLoads (h : FourthLoaded image fp k b) (hb : b + 4161 ≤ heapTotalBlocks)
    (hprog : ProgramOf image fp path 1) :
    ∃ k', TableStep k (.load path 0) k' ∧ FifthLoaded image fp k' b := by
  have hplace : Place (fun i => b + 3130 ≤ i ∨ i = b + 1048 ∨ b + 1052 ≤ i ∧ i < b + 2091)
      heapTotalBlocks (b + 1052) (b + 1048) (b + 1055) (b + 2090) :=
    ⟨fun i hi hi' => by omega, by omega, by omega, fun i hi hSi => by omega, fun i hi _ => by omega,
      by omega, by omega, by omega, b + 3130, by omega, by omega, fun i hi _ => by omega⟩
  obtain ⟨k', hstep, hstage, hl, hext⟩ := h.stage.loads 1 (b + 1052) (b + 1048) (b + 1055)
    (b + 2090) (slots_one (blockAddr_pos _)) hprog hplace (by omega) fun _ => h.fourth.owns_task
  rw [if_neg (blockAddr_pos _)] at hl hext
  have hthird := h.third.loaded hext
  have hfourth := h.fourth.loaded hext
  rw [if_neg (blockAddr_ne (by omega))] at hthird
  rw [if_pos rfl] at hfourth
  refine ⟨k', hstep, hstage.congr _ _ (fun i _ => ?_) (if_neg (blockAddr_pos _)) rfl
    fun _ _ => slots_set_one, hthird, hfourth, hl⟩
  unfold Place.rest
  omega

/-! ## The task of a live process is freed -/

/-- The third process has ended, and the directory of the fifth leads to the task of the fourth. -/
structure ThirdEnded (image : DiskImage) (fp : FatPrivate) (k : Kernel) (b : ℕ) : Prop where
  stage : Stage image fp k (fun i => b + 3130 ≤ i ∨ i = b + 2090 ∨ i = b + 2094 ∨
      b + 2098 ≤ i ∧ i < b + 3130) (blockAddr (b + 18)) (blockAddr (b + 1063))
    (slots (blockAddr (b + 7)) (blockAddr (b + 1052)) 0) (blockAddr (b + 1052))
  fourth : Lives k (b + 7) (b + 3) (b + 10) 1 0 (blockAddr (b + 2103)) (blockAddr (b + 1063))
  fifth : ∃ p t f file,
    Housed k (b + 1052) (b + 1048) (b + 1055) 1 1 p t (redirect (blockAddr (b + 18)) f) file ∧
      SpaceFrom (b + 1064) t.pageDirectory (blockAddr (b + 1064)) f ∧ t.prev = blockAddr (b + 18)

/-- The end of the third. -/
theorem FifthLoaded.thirdEnds (h : FifthLoaded image fp k b) :
    ∃ k', TableStep k (.terminate (blockAddr (b + 2091))) k' ∧ ThirdEnded image fp k' b := by
  obtain ⟨p, t, f, file, hh, hsp, hprev, -⟩ := id h.fifth
  obtain ⟨k', hstep, hend, hstage⟩ := h.stage.terminates h.third (by decide) rfl (by omega)
    (by omega) (by omega) (by omega) (.inr ⟨b + 1064, rfl, by omega, by omega, by omega⟩)
    (fun k' hk' => Kernel.StoredTo.of_directory (blockAddr_pos _)
      ((hk' (blockAddr_pos _)).trans hh.directory)) (blockAddr_ne (by omega))
  have hfifth := hh.redirected hsp hend (by omega) fun i hi => ⟨by omega, by omega⟩
  have hfourth := h.fourth.apart hend (fun i hi => ⟨by omega, by omega⟩) fun i hi => by
    obtain rfl := blockAddr_inj.mp hi
    exact ⟨by omega, by omega, by omega⟩
  exact ⟨k', hstep, hstage.congr _ _ (fun i _ => by omega) (if_pos rfl)
    (if_neg (blockAddr_ne (by omega))) fun _ _ => slots_set_two, hfourth, p, t, f, file, hfifth,
    hsp, hprev⟩

/-- The fifth process has ended, and the task of the fourth is gone. -/
structure FifthEnded (k : Kernel) (b : ℕ) : Prop where
  slot : FirstFreeSlot k.processes 1
  free : k.FreeBelow (b + 1062) fun i => i = b + 18 ∨ i = b + 1048 ∨ b + 1058 ≤ i
  process : k.processes 0 = blockAddr (b + 7)
  fourth : ∃ p, k.store (blockAddr (b + 7)) = some (.process p) ∧ p.task = blockAddr (b + 18)

/-- Its space has the task of the fourth process among its pointers. -/
theorem SpaceFrom.redirected {f : ℕ → ℕ} (hs : SpaceFrom (b + 1064) c (blockAddr (b + 1064)) f)
    (hb : b + 18 < heapTotalBlocks) (hq : SpacePointer c (blockAddr (b + 1064))
      (redirect (blockAddr (b + 18)) f) q) :
    q = blockAddr (b + 18) ∨ ∃ i, b + 1064 ≤ i ∧ i < b + 2090 ∧ q = blockAddr i :=
  (spacePointer_redirect hb hq).imp_right (hs.pointers q).mp

/-- These are the blocks of the fifth process. -/
theorem SpaceFrom.redirected_houseTask {f : ℕ → ℕ} {m : ℕ}
    (hs : SpaceFrom (b + 1064) c (blockAddr (b + 1064)) f) (hb : b + 18 < heapTotalBlocks)
    (hB : HouseTask (b + 1048) (b + 1055) 1 (SpacePointer c (blockAddr (b + 1064))
      (redirect (blockAddr (b + 18)) f)) i m) :
    (i = b + 18 ∧ m = 1) ∨ (i = b + 1048 ∧ m = 1) ∨ (i = b + 1058 ∧ m = 4) ∨
      b + 1062 ≤ i ∧ i < b + 2090 := by
  rcases hB with (⟨rfl, -⟩ | ⟨rfl, rfl⟩ | ⟨rfl, rfl⟩ | ⟨rfl, hq⟩) | ⟨rfl, -⟩
  · omega
  · omega
  · omega
  · rcases hs.redirected hb hq with he | ⟨j, hj, hj', he⟩
    · have := blockAddr_inj.mp he
      omega
    · have := blockAddr_inj.mp he
      omega
  · omega

/-- The end of the fifth. -/
theorem ThirdEnded.fifthEnds (h : ThirdEnded image fp k b) (hb : b + 4161 ≤ heapTotalBlocks) :
    ∃ k', TableStep k (.terminate (blockAddr (b + 1052))) k' ∧ FifthEnded k' b := by
  obtain ⟨p, t, f, file, hh, hsp, hprev⟩ := h.fifth
  obtain ⟨pV, tV, fV, fileV, hV, -⟩ := h.fourth
  have hlt : b + 18 < heapTotalBlocks := by omega
  obtain ⟨c, hc, hc', hcb⟩ := (hsp.pointers t.pageDirectory).mp (.inl rfl)
  have hspace (q : ℕ) (hq : SpacePointer t.pageDirectory (blockAddr (b + 1064))
      (redirect (blockAddr (b + 18)) f) q) : ∃ i, q = blockAddr i ∧ k.Owns q 1 ∧ i ≠ b + 1048 ∧
      i ≠ b + 1058 ∧ i ≠ b + 1062 ∧ i ≠ b + 1052 ∧ i ≠ b + 1063 := by
    rcases hsp.redirected hlt hq with rfl | ⟨i, hi, hi', rfl⟩
    · exact ⟨_, rfl, hV.owns_space _ le_rfl (by omega), by omega, by omega, by omega, by omega,
        by omega⟩
    · exact ⟨_, rfl, hh.owns_space _ (by omega) (by omega), by omega, by omega, by omega,
        by omega, by omega⟩
  have hne (i : ℕ) (hi : i < 1024) :
      t.pageDirectory ≠ entryAddress (redirect (blockAddr (b + 18)) f i) ∧
        blockAddr (b + 1064) ≠ entryAddress (redirect (blockAddr (b + 18)) f i) := by
    by_cases h14 : i = 14
    · rw [redirect, if_pos h14, entryAddress_blockAddr hlt, hcb]
      exact ⟨blockAddr_ne (by omega), blockAddr_ne (by omega)⟩
    · rw [redirect, if_neg h14]
      exact hsp.ne i hi
  have hprevne {i : ℕ} (hi : b + 18 ≠ i) : t.prev ≠ blockAddr i := by
    rw [hprev]
    exact blockAddr_ne hi
  obtain ⟨k', cur, hrun, hend, -, hstage⟩ := h.stage.terminate hh (by omega) (by omega) (by omega)
    le_rfl hspace hne (hprevne (by omega)) (hprevne (by omega)) (fun k₁ hgone => by
      -- the block of the task before is free by now
      have hB : HouseBlock (b + 1048) (b + 1055) 1 (SpacePointer t.pageDirectory
          (blockAddr (b + 1064)) (redirect (blockAddr (b + 18)) f)) (b + 18) 1 :=
        .inr (.inr (.inr ⟨rfl, spacePointer_redirected hlt⟩))
      have hfree := (hgone.free (b + 18) hlt).mpr (.inr ⟨b + 18, 1, hB, by omega⟩)
      rw [hprev]
      refine Kernel.StoredTo.of_free (blockAddr_pos _) (hgone.gone _ 1 hB) ?_
      rw [Kernel.heapAddressToBlock_blockAddr k₁ hlt]
      exact hfree) (fun _ => ⟨0, by decide, by decide, blockAddr_pos _⟩)
  have hstage' := hstage.congr _ (slots (blockAddr (b + 7)) 0 0) (fun _ _ => .rfl) rfl rfl
    fun _ _ => slots_set_one
  refine ⟨k', h.stage.tableStep 1 (by decide) rfl hrun,
    hstage'.firstFreeSlot (slots_one (blockAddr_pos _)),
    ⟨by omega, fun i hi => (hstage.free.2 i (by omega)).trans ⟨?_, ?_⟩⟩,
    hstage'.processes 0 (by decide), pV, ?_, hV.task_at⟩
  · rintro (hS | ⟨j, m, hB, h₁, h₂⟩)
    · omega
    · rcases hsp.redirected_houseTask hlt hB with hj | hj | hj | hj <;> omega
  · rintro (rfl | rfl | hi')
    · exact .inr ⟨b + 18, 1, .inl (.inr (.inr (.inr ⟨rfl, spacePointer_redirected hlt⟩))), by omega⟩
    · exact .inr ⟨b + 1048, 1, .inl (.inr (.inl ⟨rfl, rfl⟩)), by omega⟩
    · exact .inr ⟨b + 1058, 4, .inl (.inr (.inr (.inl ⟨rfl, rfl⟩))), by omega⟩
  · rw [hend.store _ (blockAddr_pos _) (hprevne (by omega)).symm fun j m hB => ?_, hV.process]
    rcases hsp.redirected_houseTask hlt hB with hj | hj | hj | hj <;>
      exact blockAddr_ne (by omega)

/-! ## A load that fails -/

/-- A load of a path that is none takes the blocks of the process and of the structure of its
file. -/
theorem processLoadSwitch_badPath {k₁ k₂ : Kernel} (hslot : FirstFreeSlot k.processes slot)
    (h₁ : kzalloc 9364 k = some (a, k₁)) (ha : a ≠ 0)
    (h₂ : kzalloc 132 (k₁.put a (.process Process.zero)) = some (b, k₂)) :
    processLoadSwitch [] k = some ((- EIO, 0), k₂) := by
  have hin : ¬((slot : Int) < 0 ∨ (maxProcesses : Int) ≤ slot) := by
    have := hslot.lt
    omega
  have hopen : fopen [] [114] k₂ = some (0, k₂) := rfl
  have hclose : fclose 0 k₂ = some (- EIO, k₂) := rfl
  have helf : elfLoad [] (k₁.put a (.process Process.zero)) = some (⟨- EIO, none, none⟩, k₂) := by
    simp only [elfLoad, run_bind, h₂, Option.bind_some, hopen, le_refl, if_true, hclose, run_pure]
  have hdata : processLoadData [] a (k₁.put a (.process Process.zero)) = some (- EIO, k₂) := by
    simp only [processLoadData, processLoadElf, run_bind, helf, Option.bind_some, run_pure,
      show (- EIO : Int) < 0 by decide, if_true, show ¬(- EIO : Int) = -EINFORMAT by decide, if_false]
  simp only [processLoadSwitch, run_bind, processLoad_of_slot hslot, processLoadForSlot, processGet,
    run_get, Option.bind_some, if_neg hin, Int.toNat_natCast, run_pure, hslot.free, ne_eq,
    not_true_eq_false, if_false, h₁, if_neg ha, putObj, hdata, show (- EIO : Int) < 0 by decide,
    if_true, show ¬(- EIO : Int) = 0 by decide]

/-- It takes the block of the task that has been freed. -/
theorem FifthEnded.loadFails (h : FifthEnded k b) :
    ∃ k', TableStep k (.load [] (- EIO)) k' ∧ ¬TableConsistent k' := by
  obtain ⟨p, hp, htask⟩ := h.fourth
  have hin := h.free.1
  have h₃ : blocksFor 9364 = 3 := by decide
  have h₁ : blocksFor 132 = 1 := by decide
  obtain ⟨-, hn, e₁⟩ := h.free.kzalloc_run 9364 (b + 1058) (by decide) (by omega)
    (fun i hi hi' => by omega) fun j hj => by
      by_cases hj' : j = b + 18 ∨ j = b + 1048
      · exact ⟨j + 1, by omega, by omega, by omega⟩
      · exact ⟨j, le_rfl, by omega, by omega⟩
  set k₁ := (k.allocated (b + 1058) 9364).put (blockAddr (b + 1058)) (.process Process.zero)
  have hfree₁ : k₁.FreeBelow (b + 1062) _ := (h.free.allocated hn).of_heapTable rfl
  obtain ⟨-, -, e₂⟩ := hfree₁.kzalloc_run 132 (b + 18) (by decide) (by omega)
    (fun i hi hi' => by omega) fun j hj => ⟨j, le_rfl, by omega, by omega⟩
  refine ⟨_, .load (processLoadSwitch_badPath h.slot e₁ (blockAddr_pos _) e₂), fun hcons => ?_⟩
  have hprocs : (k₁.allocated (b + 18) 132).processes 0 = blockAddr (b + 7) := h.process
  obtain ⟨p', t', hp', -, ht', -⟩ := hcons.slot 0 (by decide) (by
    rw [hprocs]
    exact blockAddr_pos _)
  rw [hprocs, Kernel.allocated_store, if_neg (fun he => blockAddr_ne (by omega) he.1),
    Kernel.put_store, if_neg (blockAddr_ne (by omega)), Kernel.allocated_store,
    if_neg (fun he => blockAddr_ne (by omega) he.1), hp, Option.some_inj, Obj.process.injEq] at hp'
  subst hp'
  rw [htask, Kernel.allocated_store, if_pos ⟨rfl, by decide⟩] at ht'
  cases ht'

/-! ## The calls before the first end -/

/-- The task of a process in the table. -/
theorem Stage.taskOfOther {S : ℕ → Prop} {head : ℕ} {procs : ℕ → ℕ}
    (h : Stage image fp k S head tail procs cur) (hl : Lives k x s y n slot prev next)
    (hslot : slot < maxProcesses) (hprocs : procs slot = blockAddr x)
    (hne : blockAddr x ≠ process) : k.TaskOfOther process (blockAddr (y + 7 + n)) := by
  obtain ⟨p, t, f, file, hh, -⟩ := hl
  have hself := (h.processes slot hslot).trans hprocs
  refine ⟨slot, hslot, ?_, ?_, p, ?_, hh.task_at⟩
  · rw [hself]
    exact blockAddr_pos x
  · rwa [hself]
  · rw [hself, hh.process]

/-- The list is empty. -/
theorem Stage.linked {S : ℕ → Prop} {procs : ℕ → ℕ} {res : Int}
    (h : Stage image fp k S 0 tail procs cur) : (TableCall.load path res).Linked k :=
  fun h0 => absurd h.head h0

/-- The task of the first process is at the end of the list. -/
theorem OneLoaded.linked {res : Int} (h : OneLoaded image fp k b) :
    (TableCall.load path res).Linked k := fun _ => by
  rw [h.stage.tail]
  exact h.stage.taskOfOther h.first (by decide) rfl (blockAddr_pos b)

/-- The task of the second is. -/
theorem TwoLoaded.linked {res : Int} (h : TwoLoaded image fp k b) :
    (TableCall.load path res).Linked k := fun _ => by
  rw [h.stage.tail]
  exact h.stage.taskOfOther h.second (by decide) rfl (blockAddr_pos _)

/-- The task of the second has that of the first before it. -/
theorem ThreeLoaded.linked (h : ThreeLoaded image fp k b) :
    (TableCall.terminate (blockAddr (b + 1045))).Linked k := by
  intro p t hp ht _
  obtain ⟨p', t', f, file, hh, -, hprev, -⟩ := h.second
  rw [hh.process, Option.some_inj, Obj.process.injEq] at hp
  subst hp
  rw [hh.task_at, hh.task, Option.some_inj, Obj.task.injEq] at ht
  subst ht
  rw [hprev]
  exact h.stage.taskOfOther h.first (by decide) rfl (blockAddr_ne (by omega))

/-! ## The table over runs -/

/-- No step stores through a pointer to a task that has been freed : the table of processes is
consistent in every state of the run, and there is no current process only while no load has
succeeded. -/
theorem processTable_run_consistent (h₀ : NoProcesses k₀)
    {tr : List (Kernel × TableCall × Kernel)} (htr : Trace TableStep k₀ tr k)
    (hl : ∀ x ∈ tr, x.2.1.Linked x.1) :
    TableConsistent k ∧ (k.currentProcess = 0 → ∀ x ∈ tr, ¬x.2.1.Loads) := by
  obtain ⟨⟨L, hinv⟩, hidle⟩ := TableInv.run h₀ htr hl
  exact ⟨hinv.consistent, hidle⟩

/-- The three programs are loaded and the second one ends. -/
theorem processTable_run_consistent_three : ∃ k₀ tr k, kernelStart programKernel = some ((), k₀) ∧
    NoProcesses k₀ ∧ Trace TableStep k₀ tr k ∧ (∀ x ∈ tr, x.2.1.Linked x.1) ∧
    tr.map (fun x => x.2.1) = [.load [48, 58, 47, 65] 0, .load [48, 58, 47, 66] 0,
      .load [48, 58, 47, 67] 0, .terminate (blockAddr (1031 + 1045))] ∧
    TableConsistent k ∧ (k.currentProcess = 0 → ∀ x ∈ tr, ¬x.2.1.Loads) := by
  obtain ⟨k₀, fp, hrun, hnone, hprog, hstage⟩ := kernelStart_stage
  obtain ⟨hA, hB, hC⟩ := hprog.programOf
  obtain ⟨k₁, r₁, h₁⟩ := hstage.firstLoads (by decide) hA
  obtain ⟨k₂, r₂, h₂⟩ := h₁.secondLoads (by decide) hB
  obtain ⟨k₃, r₃, h₃⟩ := h₂.thirdLoads (by decide) hC
  obtain ⟨k₄, r₄, -⟩ := h₃.secondEnds
  have htr := Trace.cons r₁ (.cons r₂ (.cons r₃ (.cons r₄ (.nil _))))
  have hl : ∀ x ∈ [(k₀, TableCall.load [48, 58, 47, 65] 0, k₁),
      (k₁, TableCall.load [48, 58, 47, 66] 0, k₂), (k₂, TableCall.load [48, 58, 47, 67] 0, k₃),
      (k₃, TableCall.terminate (blockAddr (1031 + 1045)), k₄)], x.2.1.Linked x.1 :=
    List.forall_mem_cons.mpr ⟨hstage.linked, List.forall_mem_cons.mpr ⟨h₁.linked,
      List.forall_mem_cons.mpr ⟨h₂.linked, List.forall_mem_singleton.mpr h₃.linked⟩⟩⟩
  exact ⟨k₀, _, k₄, hrun, hnone, htr, hl, rfl, processTable_run_consistent hnone htr hl⟩

/-- After ten calls the task of the process in the first slot is a block that a load which failed
has left. -/
theorem processTable_not_consistent : ∃ k₀ tr k, kernelStart programKernel = some ((), k₀) ∧
    NoProcesses k₀ ∧ Trace TableStep k₀ tr k ∧
    tr.map (fun x => x.2.1) = [.load [48, 58, 47, 65] 0, .load [48, 58, 47, 66] 0,
      .load [48, 58, 47, 67] 0, .terminate (blockAddr (1031 + 1045)), .terminate (blockAddr 1031),
      .load [48, 58, 47, 67] 0, .load [48, 58, 47, 67] 0, .terminate (blockAddr (1031 + 2091)),
      .terminate (blockAddr (1031 + 1052)), .load [] (- EIO)] ∧
    ¬TableConsistent k := by
  obtain ⟨k₀, fp, hrun, hnone, hprog, hstage⟩ := kernelStart_stage
  obtain ⟨hA, hB, hC⟩ := hprog.programOf
  obtain ⟨k₁, r₁, h₁⟩ := hstage.firstLoads (by decide) hA
  obtain ⟨k₂, r₂, h₂⟩ := h₁.secondLoads (by decide) hB
  obtain ⟨k₃, r₃, h₃⟩ := h₂.thirdLoads (by decide) hC
  obtain ⟨k₄, r₄, h₄⟩ := h₃.secondEnds
  obtain ⟨k₅, r₅, h₅⟩ := h₄.firstEnds
  obtain ⟨k₆, r₆, h₆⟩ := h₅.fourthLoads (by decide) hC
  obtain ⟨k₇, r₇, h₇⟩ := h₆.fifthLoads (by decide) hC
  obtain ⟨k₈, r₈, h₈⟩ := h₇.thirdEnds
  obtain ⟨k₉, r₉, h₉⟩ := h₈.fifthEnds (by decide)
  obtain ⟨k, r, hbad⟩ := h₉.loadFails
  exact ⟨k₀, _, k, hrun, hnone, .cons r₁ (.cons r₂ (.cons r₃ (.cons r₄ (.cons r₅ (.cons r₆
    (.cons r₇ (.cons r₈ (.cons r₉ (.cons r (.nil _)))))))))), rfl, hbad⟩

end Hyperion
