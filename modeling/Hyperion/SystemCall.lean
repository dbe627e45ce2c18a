import Hyperion.RunProgram

/-!
# System calls

The task that makes a system call, and the item that it has left on its stack.
-/

namespace Hyperion

open Partial

variable {k k' : Kernel} {t : Task} {d v task index flags : ℕ} {f e : ℕ → ℕ} {m : ℕ → UInt8}

/-- The current task is `t`, and item 0 of its stack is `v`. -/
structure Caller (k : Kernel) (t : Task) (d : ℕ) (f e : ℕ → ℕ) (v : ℕ) : Prop where
  ne_zero : k.currentTask ≠ 0
  self : k.store k.currentTask = some (.task t)
  maps : Maps k t.pageDirectory d f e
  item : ∃ k', taskGetStackItem k.currentTask 0 k = some (v, k')

/-- An item is a word. -/
theorem taskGetStackItem_lt :
    Meets False (taskGetStackItem task index) k fun v _ => v < 4294967296 := by
  refine .bind Meets.self fun t _ _ => .bind Meets.self fun _ _ _ => ?_
  refine .bind Meets.self fun directory _ _ => ?_
  refine .bind Meets.self fun b₀ _ _ => .bind Meets.self fun b₁ _ _ => ?_
  refine .bind Meets.self fun b₂ _ _ => .bind Meets.self fun b₃ _ _ => ?_
  refine .bind Meets.self fun _ _ _ => Meets.pure_iff.mpr ?_
  have h₀ := b₀.toNat_lt
  have h₁ := b₁.toNat_lt
  have h₂ := b₂.toNat_lt
  have h₃ := b₃.toNat_lt
  omega

namespace Caller

theorem lt (h : Caller k t d f e v) : v < 4294967296 := by
  obtain ⟨k', hrun⟩ := h.item
  exact taskGetStackItem_lt.of_eq hrun

/-- To fetch the item changes the directory at most. -/
theorem item_run (h : Caller k t d f e v) : ∃ c, taskGetStackItem k.currentTask 0 k =
    some (v, { k with currentDirectory := c }) := by
  obtain ⟨k', hrun⟩ := h.item
  have hsame := taskGetStackItem_unchanged _ _ _ hrun
  have hk : k' = { k'.withoutDirectory with currentDirectory := k'.currentDirectory } := rfl
  rw [hsame] at hk
  rw [hk] at hrun
  exact ⟨_, hrun⟩

end Caller

/-- The task of `Kernel.calling`. -/
def callingTask : Task := { Task.zero with
  pageDirectory := 4096, process := 0x900000,
  registers := { Task.zero.registers with esp := 0x800000 } }

/-- A state in which a task makes a call. Its space has the pages of the memory `m`, with
`flags`, and its stack begins at 0x800000. -/
def Kernel.calling (flags : ℕ) (m : ℕ → UInt8) : Kernel := { Kernel.empty with
  store := fun a =>
    if a = 4096 then some (.chunk 8192)
    else if a = 8192 then some (.directory fun i => (12288 + i * 4096) ||| userPageFlags)
    else if 12288 ≤ a ∧ a < 12288 + 4194304 ∧ a % 4096 = 0 then
      some (.table fun j => ((a - 12288) / 4096 * 1024 + j) * 4096 ||| flags)
    else if a = 0x900000 then some (.process { Process.zero with task := 0x901000 })
    else if a = 0x901000 then some (.task callingTask)
    else none
  mem := m
  currentTask := 0x901000
  kernelChunk := 4096 }

theorem Kernel.calling_maps : Maps (Kernel.calling flags m) 4096 8192
    (fun i => (12288 + i * 4096) ||| userPageFlags) fun n => n * 4096 ||| flags := by
  have haddr : ∀ i < 1024, entryAddress ((12288 + i * 4096) ||| userPageFlags) = 12288 + i * 4096 :=
    fun i hi => entryAddress_or (by omega) (by omega) (by decide)
  refine ⟨by decide, by decide, fun i hi => ?_, fun i hi j hj he => ?_, rfl, rfl, fun i hi => ?_⟩
  · rw [haddr i hi]
    omega
  · rw [haddr i hi, haddr j hj] at he
    omega
  · refine ⟨fun j => (i * 1024 + j) * 4096 ||| flags, ?_, fun j hj => by rw [Nat.mul_comm]⟩
    rw [haddr i hi]
    simp only [Kernel.calling]
    rw [if_neg (by omega), if_neg (by omega), if_pos (by omega),
      show (12288 + i * 4096 - 12288) / 4096 = i by omega]

theorem Kernel.calling_caller (flags : ℕ) (m : ℕ → UInt8)
    (h : (taskGetStackItem 0x901000 0 (Kernel.calling flags m)).map Prod.fst = some v) :
    Caller (Kernel.calling flags m) callingTask 8192
      (fun i => (12288 + i * 4096) ||| userPageFlags) (fun n => n * 4096 ||| flags) v where
  ne_zero := show (0x901000 : ℕ) ≠ 0 by decide
  self := rfl
  maps := Kernel.calling_maps
  item := by
    obtain ⟨⟨v', k'⟩, hrun, rfl⟩ := Option.map_eq_some_iff.mp h
    exact ⟨k', hrun⟩

/-- The pointer `v` on the stack of `Kernel.calling`, and zeros. -/
def stackMemory (v : ℕ) : ℕ → UInt8 := fun a =>
  if a < 0x800000 then 0 else (wordBytes v).getD (a - 0x800000) 0

end Hyperion
