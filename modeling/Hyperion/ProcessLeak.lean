import Hyperion.ImageKept
import Hyperion.Termination

/-!
# The blocks of a process that has ended

`process_terminate` does not free the structure of the process, so that the blocks that were
reserved for a process are never all returned (`processTerminate_leaks`).

`Kernel.ReservedSince` are the blocks that were free before the load and are taken since, and
`Kernel.ReturnsExactly` is what the end should do : these become free, and no other entry of the
table changes. Between the load and the end the process may allocate and free, and nothing of that
is lost, but the block at which its structure begins is among those reserved and stays taken
(`Loaded.structure_stays`). On a concrete volume it is block 6
(`processTerminate_keeps_structure`).
-/

namespace Hyperion

open Partial FreeRun

variable {k k' k₀ k₁ k₂ k₃ : Kernel} {process slot a b n : ℕ} {p : Process} {t : Task} {d : ℕ}
  {f e : ℕ → ℕ} {filename : List UInt8} {res : Int}

/-- `b` is taken in `k'` and was free in `k`. -/
structure Kernel.ReservedSince (k k' : Kernel) (b : ℕ) : Prop where
  lt : b < heapTotalBlocks
  free : k.table.IsFree b
  taken : ¬k'.table.IsFree b

/-- Between `k₂` and `k₃` the blocks that were reserved since `k` become free, and no other entry
of the table changes. -/
structure Kernel.ReturnsExactly (k k₂ k₃ : Kernel) : Prop where
  returned : ∀ b, k.ReservedSince k₂ b → k₃.table.IsFree b
  others : ∀ i : Int, (∀ b : ℕ, k.ReservedSince k₂ b → i ≠ b) → k₃.heapTable i = k₂.heapTable i

/-- What is allocated elsewhere afterwards is still free when a block has been taken. -/
theorem Kernel.Answers.fresh_allocated {size : ℕ} (hb : k.Answers size b) (hpos : 1 ≤ size)
    (hk : Keeps (k.allocated b size).table k'.table) (ha : k.Fresh a) (ho : k'.Owns a n)
    (hne : a ≠ blockAddr b) : (k.allocated b size).Fresh a := by
  obtain ⟨c, hc, rfl, hfree⟩ := ha
  obtain ⟨c', hc', hheld⟩ := ho
  obtain rfl := blockAddr_inj.mp hc'
  obtain ⟨b', hb', hself⟩ := hb.owns hpos
  obtain rfl := blockAddr_inj.mp hb'
  have hbc : b ≠ c := fun he => hne (by rw [he])
  exact ⟨c, hc, rfl, Kernel.allocated_isFree.mpr
    ⟨hfree, (hk.held hself).start_not_inside hheld hbc⟩⟩

/-- What a process that was loaded owns besides its structure was free when that had been taken. -/
theorem Loaded.ownData (h : Loaded k k₁ (blockAddr b) slot p t d f e) (hb : k.Answers 9364 b)
    (hk : Keeps (k.allocated b 9364).table k₁.table) :
    OwnData (k.allocated b 9364) (blockAddr b) p t d f := by
  have hfresh {a n : ℕ} (ha : k.Fresh a) (ho : k₁.Owns a n) (hne : a ≠ blockAddr b) :
      (k.allocated b 9364).Fresh a := hb.fresh_allocated (by decide) hk ha ho hne
  have hbuffer {a n : ℕ} (ha : Buffer k k₁ a n) :
      (k.allocated b 9364).Fresh a ∧ ¬ProcessPointer (blockAddr b) p t d f a := by
    have hnot : ¬ProcessPointer (blockAddr b) p t d f a := by
      intro hp
      obtain ⟨-, o, ho⟩ := h.at_process.exists_obj hp
      rw [ha.store] at ho
      cases ho
    exact ⟨hfresh ha.fresh ha.owns fun he => hnot (he ▸ .self), hnot⟩
  refine ⟨fun a ha => ?_, hbuffer h.stack, fun a ha hne => ?_, (hb.owns (by decide)).not_fresh⟩
  · obtain ⟨n, hn⟩ := h.data.pointer ha
    exact hbuffer hn
  · obtain ⟨hf, ho⟩ := h.space a ha hne
    exact hfresh hf ho hne

/-- The block of the structure is reserved, and stays taken when the process ends. -/
theorem Loaded.structure_stays (hg : Guarded k.table)
    (h : Loaded k k₁ (blockAddr b) slot p t d f e) (hb : k.Answers 9364 b)
    (hk : Keeps (k.allocated b 9364).table k₁.table)
    {tr : List (Kernel × AllocEvent × Kernel)} (htr : Trace AllocStep k₁ tr k₂)
    (hown : ∀ x ∈ tr, x.2.1.process = blockAddr b)
    (hterm : processTerminate (blockAddr b) k₂ = some (res, k₃)) :
    k.ReservedSince k₂ b ∧ ¬k₃.table.IsFree b := by
  have hg₀ : Guarded (k.allocated b 9364).table := hb.ext.keeps.guarded hg
  obtain ⟨al, e', hstate, -⟩ := h.allocState.run (h.guarded hg) htr hown
  have hended : Meets False (processTerminate (blockAddr b)) k₂ _ :=
    processTerminate_meets hg₀ hk hstate (h.ownData hb hk) False.elim
  have htaken : ¬(k.allocated b 9364).table.IsFree b := by
    obtain ⟨c, hc, hheld⟩ := hb.owns (show 1 ≤ 9364 by decide)
    obtain rfl := blockAddr_inj.mp hc
    exact hheld.not_isFree_start
  exact ⟨⟨hb.lt, hb.free, (hk.trans hstate.keeps).not_isFree hb.lt htaken⟩,
    (hended.of_eq hterm).2.keeps.not_isFree hb.lt htaken⟩

/-- A load that succeeds, at block `b`. -/
theorem processLoadForSlot_loaded (hg : Guarded k.table) (hslot : slot < maxProcesses)
    (hload : processLoadForSlot filename slot k = some ((0, process), k₁)) :
    ∃ b p t d f e, process = blockAddr b ∧ k.Answers 9364 b ∧
      Keeps (k.allocated b 9364).table k₁.table ∧ Loaded k k₁ process slot p t d f e := by
  obtain ⟨hneg, -⟩ | ⟨hneg, -⟩ | ⟨p, t, d, f, e, -, hloaded⟩ :=
    (processLoadForSlot_meets hg hslot).of_eq hload
  · exact absurd hneg (lt_irrefl _)
  · exact absurd hneg (lt_irrefl _)
  · obtain ⟨b, rfl, hb, hext⟩ := hloaded.self
    have hk := hext.keeps
    rw [Kernel.setNext_table, Kernel.put_table] at hk
    exact ⟨b, p, t, d, f, e, rfl, hb, hk, hloaded⟩

/-- The end of a process never returns exactly the blocks that were reserved for it. -/
theorem processTerminate_leaks (hg : Guarded k.table) (hslot : slot < maxProcesses)
    (hload : processLoadForSlot filename slot k = some ((0, process), k₁))
    {tr : List (Kernel × AllocEvent × Kernel)} (htr : Trace AllocStep k₁ tr k₂)
    (hown : ∀ x ∈ tr, x.2.1.process = process)
    (hterm : processTerminate process k₂ = some (res, k₃)) : ¬k.ReturnsExactly k₂ k₃ := by
  obtain ⟨b, p, t, d, f, e, rfl, hb, hk, hloaded⟩ := processLoadForSlot_loaded hg hslot hload
  obtain ⟨hreserved, hstays⟩ := hloaded.structure_stays hg hb hk htr hown hterm
  exact fun hret => hstays (hret.returned b hreserved)

/-- A process that was loaded from the file with one segment frees null and ends. -/
theorem oneSegment_ends : ∃ k k₁ k₂ k₃, Guarded k.table ∧
    processLoadForSlot smallPath 0 k = some ((0, blockAddr 6), k₁) ∧
    processFree (blockAddr 6) 0 k₁ = some ((), k₂) ∧
    processTerminate (blockAddr 6) k₂ = some (0, k₃) ∧
    k.ReservedSince k₂ 6 ∧ ¬k₃.table.IsFree 6 := by
  obtain ⟨k, k₀, k₁, _, _, p, t, dir, f, e, h⟩ := oneSegment_loads (show (84, 0) ∈ _ by decide)
  have hload : processLoadForSlot smallPath 0 k = some ((0, blockAddr 6), k₁) :=
    (processLoad_of_slot h.slot).symm.trans h.load
  obtain ⟨b, q, t', dir', f', e', hblock, hb, hk, hloaded⟩ :=
    processLoadForSlot_loaded h.guarded h.slot.lt hload
  obtain rfl := blockAddr_inj.mp hblock
  obtain rfl := hloaded.at_process.unique h.task.at_process.self
  have htask := hloaded.at_process.task
  rw [h.task.at_process.task, Option.some_inj, Obj.task.injEq] at htask
  subst htask
  have hprev : t.prev = 0 := by
    rw [h.task.prev, Kernel.listEnd, if_pos h.head]
  have hcur : k₁.currentProcess = 0 := by
    show k₁.globals.currentProcess = 0
    rw [h.task.globals]
    show k₀.currentProcess = 0
    exact h.current
  have hfree : Meets True (processFree (blockAddr 6) 0) k₁ _ :=
    hloaded.allocState.free_meets (hloaded.guarded h.guarded) (show 0 < 4294967296 by decide)
  obtain ⟨⟨⟩, k₂, hrun, al, e₂, hstate, -, hglob⟩ := hfree.exists_result
  have hcur₂ : k₂.currentProcess ≠ blockAddr 6 := by
    show k₂.globals.currentProcess ≠ blockAddr 6
    rw [hglob]
    exact hcur.trans_ne (blockAddr_pos 6).symm
  have hend : Meets True (processTerminate (blockAddr 6)) k₂ _ :=
    processTerminate_meets (hb.ext.keeps.guarded h.guarded) hk hstate (hloaded.ownData hb hk)
      fun _ =>
      ⟨hloaded.data.typed, fun hne => absurd hprev hne, fun hc => absurd hc hcur₂⟩
  obtain ⟨_, k₃, hterm, rfl, -⟩ := hend.exists_result
  exact ⟨k, k₁, k₂, k₃, h.guarded, hload, hrun, hterm, hloaded.structure_stays h.guarded hb hk
    (.cons (.free hrun (by decide)) (.nil _)) (by simp) hterm⟩

theorem processTerminate_leaks_null : ∃ k k₁ k₂ k₃,
    processLoadForSlot smallPath 0 k = some ((0, blockAddr 6), k₁) ∧
      processFree (blockAddr 6) 0 k₁ = some ((), k₂) ∧
      processTerminate (blockAddr 6) k₂ = some (0, k₃) ∧ ¬k.ReturnsExactly k₂ k₃ := by
  obtain ⟨k, k₁, k₂, k₃, hg, hload, hfree, hterm, -⟩ := oneSegment_ends
  exact ⟨k, k₁, k₂, k₃, hload, hfree, hterm, processTerminate_leaks hg (by decide) hload
    (.cons (.free hfree (by decide)) (.nil _)) (by simp) hterm⟩

/-- The structure in block 6 is not freed. -/
theorem processTerminate_keeps_structure : ∃ k k₁ k₂ k₃, Guarded k.table ∧
    processLoadForSlot smallPath 0 k = some ((0, blockAddr 6), k₁) ∧
    processFree (blockAddr 6) 0 k₁ = some ((), k₂) ∧
    processTerminate (blockAddr 6) k₂ = some (0, k₃) ∧
    k.ReservedSince k₂ 6 ∧ ¬k₃.table.IsFree 6 ∧ ¬k.ReturnsExactly k₂ k₃ := by
  obtain ⟨k, k₁, k₂, k₃, hg, hload, hfree, hterm, hreserved, hstays⟩ := oneSegment_ends
  exact ⟨k, k₁, k₂, k₃, hg, hload, hfree, hterm, hreserved, hstays,
    fun hret => hstays (hret.returned 6 hreserved)⟩

end Hyperion
