import Hyperion.ArgumentsArrive
import Hyperion.Lib.Links

/-!
# Walking the arguments

`process_count_command_arguments` and the loop of `process_inject_arguments` follow links that
the caller has stored. Both end exactly if the links do not lead back to an argument
(`argumentWalk_ends_iff`) : there is no bound on the number of arguments that are counted.

Addresses are 32-bit words, so that a walk which does not end comes back to a node it was at
(`ArgumentChain.exists_iff_neverReturns`). For the second loop the nodes have to be in blocks that
are taken, since the kernel writes its copies to blocks that were free. The condition is put on the
nodes that the links lead to (`ArgumentsTaken`) and not on a list of them, as a list would say
already that the links end.

`argumentWalk_goes_round` is the other case on a concrete kernel : the only argument, named `a`,
links to itself (`Kernel.holdingRing`).
-/

namespace Hyperion

open Links Partial

variable {k : Kernel} {a process root : ℕ} {nodes : List ℕ} {p : Process} {t : Task} {d : ℕ}
  {f : ℕ → ℕ} {m : ℕ → UInt8}

namespace ArgumentChain

/-- The chain ends if the links come to a null pointer. -/
theorem exists_iff :
    (∃ nodes, ArgumentChain m a nodes) ↔ ∃ n, (commandArgumentNext m)^[n] a = 0 := by
  constructor
  · rintro ⟨nodes, h⟩
    induction h with
    | nil => exact ⟨0, Function.iterate_zero_apply _ _⟩
    | cons _ _ ih =>
      obtain ⟨n, hn⟩ := ih
      exact ⟨n + 1, (Function.iterate_succ_apply _ _ _).trans hn⟩
  · rintro ⟨n, hn⟩
    induction n generalizing a with
    | zero =>
      rw [Function.iterate_zero_apply] at hn
      exact ⟨[], hn ▸ .nil⟩
    | succ n ih =>
      rw [Function.iterate_succ_apply] at hn
      obtain ⟨nodes, h⟩ := ih hn
      by_cases h0 : a = 0
      · exact ⟨[], h0 ▸ .nil⟩
      · exact ⟨a :: nodes, .cons h0 h⟩

/-- A walk that was counted is a chain. -/
theorem exists_of_count : ∀ {fuel a i n : ℕ},
    processCountCommandArgumentsLoop m fuel a i = some n → ∃ nodes, ArgumentChain m a nodes
  | 0, a, i, n, h => by
    rw [processCountCommandArgumentsLoop] at h
    split_ifs at h with h0
    exact ⟨[], h0 ▸ .nil⟩
  | fuel + 1, a, i, n, h => by
    rw [processCountCommandArgumentsLoop] at h
    split_ifs at h with h0
    · exact ⟨[], h0 ▸ .nil⟩
    · obtain ⟨nodes, hchain⟩ := exists_of_count h
      exact ⟨a :: nodes, .cons h0 hchain⟩

/-- There are finitely many addresses, so the chain ends exactly if it does not come back. -/
theorem exists_iff_neverReturns :
    (∃ nodes, ArgumentChain m a nodes) ↔ NeverReturns (commandArgumentNext m) (· = 0) a := by
  rw [exists_iff]
  have hfin : (Set.range fun n => (commandArgumentNext m)^[n] a).Finite := by
    refine (Set.finite_Iio (a + 4294967296)).subset ?_
    rintro _ ⟨n, rfl⟩
    rw [Set.mem_Iio]
    cases n with
    | zero => exact Nat.lt_add_of_pos_right (by decide)
    | succ n =>
      show (commandArgumentNext m)^[n + 1] a < _
      rw [Function.iterate_succ_apply']
      exact Nat.lt_add_left a (word32_ensures _ m)
  exact @exists_mark_iff _ (commandArgumentNext m) (· = 0) a hfin

end ArgumentChain

/-- The arguments that the links from `a` on lead to are in blocks that are taken. -/
def ArgumentsTaken (k : Kernel) (a : ℕ) : Prop :=
  ∀ i, (∀ l ≤ i, (commandArgumentNext k.mem)^[l] a ≠ 0) →
    ∀ j < 516, k.Taken ((commandArgumentNext k.mem)^[i] a + j)

/-- The first node is in blocks that are taken. -/
theorem ArgumentsTaken.head (h : ArgumentsTaken k a) (h0 : a ≠ 0) : ∀ j < 516, k.Taken (a + j) := by
  intro j hj
  have hin := h 0 (fun l hl => ?_) j hj
  · rwa [Function.iterate_zero_apply] at hin
  · obtain rfl : l = 0 := Nat.le_zero.mp hl
    rwa [Function.iterate_zero_apply]

/-- So are those behind it. -/
theorem ArgumentsTaken.next (h : ArgumentsTaken k a) (h0 : a ≠ 0) :
    ArgumentsTaken k (commandArgumentNext k.mem a) := by
  intro i hi j hj
  rw [← Function.iterate_succ_apply]
  refine h (i + 1) (fun l hl => ?_) j hj
  cases l with
  | zero => rwa [Function.iterate_zero_apply]
  | succ l =>
    rw [Function.iterate_succ_apply]
    exact hi l (Nat.le_of_succ_le_succ hl)

/-- A chain of such nodes is a list of arguments. -/
theorem ArgumentsTaken.list (h : ArgumentsTaken k a) (hchain : ArgumentChain k.mem a nodes) :
    ArgumentList k a nodes := by
  induction hchain with
  | nil => exact .nil
  | cons h0 _ ih => exact .cons h0 (h.head h0) (ih (h.next h0))

/-- And the nodes of a list are such. -/
theorem ArgumentList.argumentsTaken (h : ArgumentList k a nodes) : ArgumentsTaken k a := by
  induction h with
  | nil =>
    intro i hi
    exact absurd (Function.iterate_zero_apply _ _) (hi 0 (Nat.zero_le i))
  | cons _ hin _ ih =>
    intro i hi
    cases i with
    | zero => simpa only [Function.iterate_zero_apply] using hin
    | succ i =>
      rw [Function.iterate_succ_apply]
      refine ih i fun l hl => ?_
      rw [← Function.iterate_succ_apply]
      exact hi (l + 1) (Nat.succ_le_succ hl)

/-- Counting the arguments and copying them ends exactly if the links do not lead back. -/
theorem argumentWalk_ends_iff (h : Unallocated k process p t d f) (htaken : ArgumentsTaken k root) :
    ((∃ fuel n, processCountCommandArguments k.mem fuel root = some n) ∧
      ∃ fuel res k', processInjectArguments fuel process root k = some (res, k')) ↔
    NeverReturns (commandArgumentNext k.mem) (· = 0) root := by
  rw [← ArgumentChain.exists_iff_neverReturns]
  constructor
  · rintro ⟨⟨fuel, n, hcount⟩, -⟩
    exact ArgumentChain.exists_of_count hcount
  · rintro ⟨nodes, hchain⟩
    have hcount : processCountCommandArguments k.mem nodes.length root = some nodes.length := by
      rw [processCountCommandArguments, hchain.count, if_pos le_rfl, Nat.zero_add]
    refine ⟨⟨_, _, hcount⟩, nodes.length, ?_⟩
    by_cases hne : nodes = []
    · subst hne
      refine ⟨- EIO, k, ?_⟩
      simp only [processInjectArguments, run_bind, run_get, Option.bind_some, hcount]
      rfl
    · obtain ⟨res, k', hrun, -⟩ :=
        (processInjectArguments_meets h (htaken.list hchain) hne le_rfl).exists_result
      exact ⟨res, k', hrun⟩

/-- Two arguments are counted and copied. -/
theorem argumentWalk_ends_two :
    (∃ fuel n,
      processCountCommandArguments Kernel.holdingArguments.mem fuel (blockAddr 0) = some n) ∧
      ∃ fuel res k', processInjectArguments fuel 0x900000 (blockAddr 0) Kernel.holdingArguments =
        some (res, k') :=
  (argumentWalk_ends_iff (Kernel.oneSpaceProcess_unallocated (k := Kernel.holdingArguments) rfl)
    Kernel.holdingArguments_list.argumentsTaken).mpr
      (ArgumentChain.exists_iff_neverReturns.mp ⟨_, Kernel.holdingArguments_list.chain⟩)

/-- A process, and an argument `a` in the first block of the heap that links to itself. -/
def Kernel.holdingRing : Kernel := { Kernel.oneSpaceProcess Process.zero with
  heapTable := fun b => if b = 0 then blockByte 1 0 else blockFree
  mem := fun a => if 512 ≤ a - blockAddr 0 then (wordBytes (blockAddr 0)).getD
    (a - blockAddr 0 - 512) 0 else if a = blockAddr 0 then 97 else 0 }

/-- All links of the ring lead to its only node. -/
theorem Kernel.holdingRing_iterate (n : ℕ) :
    (commandArgumentNext Kernel.holdingRing.mem)^[n] (blockAddr 0) = blockAddr 0 :=
  Function.iterate_fixed (by decide +kernel) n

/-- The arguments of `Kernel.holdingRing` are never counted. -/
theorem argumentWalk_goes_round :
    (∃ p t d f, Unallocated Kernel.holdingRing 0x900000 p t d f) ∧
      ArgumentsTaken Kernel.holdingRing (blockAddr 0) ∧ ∀ fuel,
        processCountCommandArguments Kernel.holdingRing.mem fuel (blockAddr 0) = none ∧
          processInjectArguments fuel 0x900000 (blockAddr 0) Kernel.holdingRing = none := by
  have hcount : ∀ fuel,
      processCountCommandArguments Kernel.holdingRing.mem fuel (blockAddr 0) = none := by
    intro fuel
    rw [Option.eq_none_iff_forall_ne_some]
    intro n h
    obtain ⟨l, hl⟩ := ArgumentChain.exists_iff.mp (ArgumentChain.exists_of_count h)
    rw [Kernel.holdingRing_iterate] at hl
    exact blockAddr_pos 0 hl
  refine ⟨⟨_, _, _, _, Kernel.oneSpaceProcess_unallocated (k := Kernel.holdingRing) rfl⟩,
    fun i _ j hj => ?_, fun fuel => ⟨hcount fuel, ?_⟩⟩
  · rw [Kernel.holdingRing_iterate]
    exact ⟨0, by decide, blockByte_ne_free 1 0, by omega, by omega⟩
  · simp only [processInjectArguments, run_bind, run_get, Option.bind_some, hcount]
    rfl

end Hyperion
