import Hyperion.AllocationRuns
import Hyperion.CopyString
import Hyperion.KeptBytes

/-!
# Injecting arguments

`process_inject_arguments` copies a list of arguments into memory of a process, a record and
a block for each. For a process without allocations it succeeds exactly if there are records
and blocks for all of them and for the array of pointers (`processInjectArguments_meets`).

The list is the caller's, and is read from memory as it is when the loop gets there.
`ArgumentChain` is the list in plain memory : from `a` on the links lead through `nodes` and end.
A chain is determined by its first node (`ArgumentChain.unique`) and comes to no node twice
(`ArgumentChain.nodup`). `ArgumentList` is a chain whose bytes lie in blocks that are taken, which
allocation leaves as they are, so that the list stays where it is (`ArgumentList.kept`).

`Injecting` is the invariant of the loop : the process has been given `c` blocks, each of which was
free, and nothing else has changed. `processInjectArgumentsLoop_meets` goes through the list by
induction. A copy is at most 512 bytes, the size of what `process_malloc` is asked for, so that it
fits in the block (`length_stringAt_le`).
-/

namespace Hyperion

open Partial FreeRun

variable {k k' k₁ : Kernel} {a b c d i process size : ℕ} {nodes nodes' : List ℕ} {p : Process}
  {t : Task} {f : ℕ → ℕ}

/-! ## The list -/

/-- From `a` on the links in the memory `m` lead through the arguments at `nodes`, and end. -/
inductive ArgumentChain (m : ℕ → UInt8) : ℕ → List ℕ → Prop
  | nil : ArgumentChain m 0 []
  | cons {a : ℕ} {nodes : List ℕ} : a ≠ 0 → ArgumentChain m (commandArgumentNext m a) nodes →
      ArgumentChain m a (a :: nodes)

namespace ArgumentChain

variable {m : ℕ → UInt8}

theorem unique (h : ArgumentChain m a nodes) (h' : ArgumentChain m a nodes') : nodes = nodes' := by
  induction h generalizing nodes' with
  | nil =>
    cases h' with
    | nil => rfl
    | cons h0 _ => exact absurd rfl h0
  | cons h0 _ ih =>
    cases h' with
    | nil => exact absurd rfl h0
    | cons _ hrest => rw [ih hrest]

/-- From an argument of the chain on the chain is no longer. -/
theorem length_le_of_mem (h : ArgumentChain m a nodes) (hb : b ∈ nodes) :
    ∃ rest, ArgumentChain m b rest ∧ rest.length ≤ nodes.length := by
  induction h with
  | nil => exact absurd hb List.not_mem_nil
  | cons h0 hrest ih =>
    rcases List.mem_cons.mp hb with rfl | hb
    · exact ⟨_, .cons h0 hrest, le_rfl⟩
    · obtain ⟨rest, hchain, hle⟩ := ih hb
      exact ⟨rest, hchain, hle.trans (Nat.le_succ _)⟩

theorem nodup (h : ArgumentChain m a nodes) : nodes.Nodup := by
  induction h with
  | nil => exact List.nodup_nil
  | cons h0 hrest ih =>
    refine List.nodup_cons.mpr ⟨fun hmem => ?_, ih⟩
    obtain ⟨rest, hchain, hle⟩ := hrest.length_le_of_mem hmem
    have hlength := congrArg List.length (hchain.unique (.cons h0 hrest))
    rw [List.length_cons] at hlength
    omega

/-- The count of a chain that is not too long. -/
theorem count (h : ArgumentChain m a nodes) : ∀ {fuel : ℕ} (i : ℕ),
    processCountCommandArgumentsLoop m fuel a i =
      if nodes.length ≤ fuel then some (i + nodes.length) else none := by
  induction h with
  | nil =>
    intro fuel i
    cases fuel <;> simp [processCountCommandArgumentsLoop]
  | @cons a nodes h0 hrest ih =>
    intro fuel i
    cases fuel with
    | zero => simp [processCountCommandArgumentsLoop, h0]
    | succ fuel =>
      rw [processCountCommandArgumentsLoop, if_neg h0, ih, List.length_cons]
      by_cases hle : nodes.length ≤ fuel
      · rw [if_pos hle, if_pos (by omega), Nat.add_right_comm, Nat.add_assoc]
      · rw [if_neg hle, if_neg (by omega)]

end ArgumentChain

/-- The byte at `a` is in a block that is taken. -/
def Kernel.Taken (k : Kernel) (a : ℕ) : Prop :=
  ∃ b < heapTotalBlocks, ¬k.table.IsFree b ∧ blockAddr b ≤ a ∧ a < blockAddr b + 4096

/-- The arguments from `a` on lie at `nodes`, in blocks that are taken. -/
inductive ArgumentList (k : Kernel) : ℕ → List ℕ → Prop
  | nil : ArgumentList k 0 []
  | cons {a : ℕ} {nodes : List ℕ} : a ≠ 0 → (∀ j < 516, k.Taken (a + j)) →
      ArgumentList k (commandArgumentNext k.mem a) nodes → ArgumentList k a (a :: nodes)

theorem Kernel.Taken.covered (h : k.Taken a) : k.Covered a := by
  obtain ⟨b, hb, hfree, hlo, hhi⟩ := h
  have hblock : min ((a - heapAddress) / 4096) (heapTotalBlocks - 1) = b := by
    unfold blockAddr heapAddress at *
    unfold heapTotalBlocks at *
    omega
  refine ⟨by unfold blockAddr at hlo; omega, ?_⟩
  rwa [hblock]

theorem Kernel.Taken.lt (h : k.Taken a) : a < 0x7400000 := by
  obtain ⟨b, hb, -, -, hhi⟩ := h
  have := blockAddr_lt hb
  omega

theorem Kernel.Taken.kept (h : k₁.Taken a) (hk : k₁.KeepsBytes k) : k.Taken a := by
  obtain ⟨b, hb, hfree, hlo, hhi⟩ := h
  have hcov := hk.covered _ (Kernel.Taken.covered ⟨b, hb, hfree, hlo, hhi⟩)
  refine ⟨b, hb, fun hf => ?_, hlo, hhi⟩
  refine Kernel.not_covered_of_isFree (j := a - blockAddr b) hb hf (by omega) ?_
  rwa [Nat.add_sub_cancel' hlo]

/-- The word that was stored. -/
theorem word32_wordBytes {m : ℕ → UInt8} {v : ℕ}
    (h : ∀ j < 4, m (a + j) = (wordBytes v).getD j 0) (hv : v < 4294967296) :
    word32 m a = v := by
  have h0 : m a = UInt8.ofNat v := h 0 (by decide)
  have h1 : m (a + 1) = UInt8.ofNat (v / 256) := h 1 (by decide)
  have h2 : m (a + 2) = UInt8.ofNat (v / 65536) := h 2 (by decide)
  have h3 : m (a + 3) = UInt8.ofNat (v / 16777216) := h 3 (by decide)
  simp only [word32, h0, h1, h2, h3, UInt8.toNat_ofNat']
  omega

namespace ArgumentList

theorem chain (h : ArgumentList k a nodes) : ArgumentChain k.mem a nodes := by
  induction h with
  | nil => exact .nil
  | cons h0 _ _ ih => exact .cons h0 ih

theorem unique (h : ArgumentList k a nodes) (h' : ArgumentList k a nodes') : nodes = nodes' :=
  h.chain.unique h'.chain

theorem taken_of_mem (h : ArgumentList k a nodes) (hb : b ∈ nodes) : k.Taken b := by
  induction h with
  | nil => exact absurd hb List.not_mem_nil
  | cons h0 hin hrest ih =>
    rcases List.mem_cons.mp hb with rfl | hb
    · exact hin 0 (by decide)
    · exact ih hb

/-- There are no more arguments than bytes in front of the end of the heap. -/
theorem length_le (h : ArgumentList k a nodes) : nodes.length ≤ 0x7400000 := by
  have hsub : nodes.toFinset ⊆ Finset.range 0x7400000 := fun b hb =>
    Finset.mem_range.mpr (h.taken_of_mem (List.mem_toFinset.mp hb)).lt
  have hcard := Finset.card_le_card hsub
  rwa [List.toFinset_card_of_nodup h.chain.nodup, Finset.card_range] at hcard

/-- The link of the first argument is in memory that is kept. -/
theorem next_eq (h : ArgumentList k₁ a (a :: nodes)) (hk : k₁.KeepsBytes k) :
    commandArgumentNext k.mem a = commandArgumentNext k₁.mem a := by
  cases h with
  | cons _ hin _ =>
    have hbyte (j : ℕ) (hj : j < 516) : k.mem (a + j) = k₁.mem (a + j) :=
      hk.byte _ (hin j hj).covered
    simp only [commandArgumentNext, word32, Nat.add_assoc]
    rw [hbyte 512 (by decide), hbyte 513 (by decide), hbyte 514 (by decide), hbyte 515 (by decide)]

/-- The list stays where it is. -/
theorem kept (h : ArgumentList k₁ a nodes) (hk : k₁.KeepsBytes k) : ArgumentList k a nodes := by
  induction h with
  | nil => exact .nil
  | cons h0 hin hrest ih =>
    refine .cons h0 (fun j hj => (hin j hj).kept hk) ?_
    rwa [(ArgumentList.cons h0 hin hrest).next_eq hk]

end ArgumentList

/-! ## Requests of the process -/

/-- `k` is `k₁` after the process at `process` was given `c` blocks, the bytes of which may have
been written. -/
structure Injecting (k₁ : Kernel) (process : ℕ) (p : Process) (t : Task) (d : ℕ) (f : ℕ → ℕ)
    (c : ℕ) (k : Kernel) : Prop where
  state : ∃ al e, AllocState k₁ process p t d f k al e ∧
    ∀ i < maxProgramAllocations, (al i).ptr = 0 ↔ c ≤ i
  bytes : k₁.KeepsBytes k
  globals : k.globals = k₁.globals

namespace Injecting

/-- Bytes stored to a block that was free. -/
theorem withBytes (h : Injecting k₁ process p t d f c k) {j : ℕ} {bs : List UInt8}
    (hb : b < heapTotalBlocks) (hf : k₁.table.IsFree b) (hj : j + bs.length ≤ 4096) :
    Injecting k₁ process p t d f c (k.withBytes (blockAddr b + j) bs) where
  state := by
    obtain ⟨al, e, hstate, hal⟩ := h.state
    exact ⟨al, e, ⟨hstate.keeps, hstate.at_process.congr fun _ _ => rfl, hstate.pointers,
      hstate.records⟩, hal⟩
  bytes := h.bytes.withBytes fun i hi => by
    rw [Nat.add_assoc]
    exact Kernel.not_covered_of_isFree hb hf (by omega)
  globals := h.globals

/-- The heap has no free block when a request for a part of one is not served. -/
theorem freeBlocks_eq_zero (hpos : 1 ≤ size) (hle : size ≤ 4096)
    (hs : heapGetStartBlock k.heap (requestBlocks size) = -ENOMEM) : k.freeBlocks = 0 := by
  by_contra hne
  obtain ⟨b, hb, hf⟩ := Kernel.exists_free (Nat.pos_of_ne_zero hne)
  have hnull := Kernel.kzalloc_of_full hs
  rcases Kernel.kzalloc_one k hpos hle with ⟨b', -, -, -, he⟩ | ⟨-, hall⟩
  · rw [hnull] at he
    exact blockAddr_pos b' (congrArg Prod.fst (Option.some.inj he)).symm
  · exact hall b hb hf

/-- `process_malloc` is refused only if there is no free block or no empty record. -/
theorem malloc (h : Injecting k₁ process p t d f c k) (hpos : 1 ≤ size)
    (hsize : size ≤ 0xF0000000) : Meets True (processMalloc process size) k fun res k' =>
      (res = 0 ∧ k'.globals = k₁.globals ∧
        (size ≤ 4096 → k.freeBlocks = 0 ∨ maxProgramAllocations ≤ c)) ∨
      ∃ b < heapTotalBlocks, res = blockAddr b ∧ k₁.table.IsFree b ∧ c < maxProgramAllocations ∧
        Injecting k₁ process p t d f (c + 1) k' ∧
        (size ≤ 4096 → k'.freeBlocks + 1 = k.freeBlocks) := by
  obtain ⟨al, e, hstate, hal⟩ := h.state
  have hnf : ∀ a, ProcessPointer process (p.withRecords al) t d f a → ¬k.Fresh a := fun a ha =>
    hstate.not_fresh (ProcessPointer.withRecords.mp ha)
  refine (processMalloc_rule hstate.at_process hnf fun _ => hsize).mono ?_
  rintro res k' (⟨rfl, rfl, hnull⟩ | ⟨b, hb, ⟨hno, rfl, rfl⟩ | ⟨i, k₂, rfl, hi, ht, hat, rfl⟩⟩)
  · exact .inl ⟨rfl, h.globals, fun hle => .inl (freeBlocks_eq_zero hpos hle hnull)⟩
  · refine .inl ⟨rfl, h.globals, fun hle => .inr ?_⟩
    rcases hno with hall | hinvalid
    · by_contra hlt
      exact hall c (by omega) ((hal c (by omega)).mpr le_rfl)
    · have hone := requestBlocks_one hpos hle
      have hfor : blocksFor size = 1 := by
        unfold blocksFor
        omega
      have hlt := hb.lt
      have hin : b + blocksFor size ≤ heapTotalBlocks := by
        rw [hfor]
        exact hlt
      refine absurd ?_ hinvalid
      unfold ProcessAllocation.pageEnd
      rw [pagingAlignAddress_blockAddr hin]
      have hmod := blockAddr_mod b
      exact ⟨hmod, hmod, by omega, by omega⟩
  · have hci : c ≤ i := (hal i hi.lt).mp hi.empty
    have hic : ¬c < i := fun hlt => hi.first c hlt ((hal c (hlt.trans hi.lt)).mpr le_rfl)
    obtain rfl : i = c := by omega
    obtain ⟨b', hb', he, hfree⟩ := hstate.keeps.fresh hb.fresh
    obtain rfl := blockAddr_inj.mp he
    refine .inr ⟨b, hb.lt, rfl, hfree, hi.lt, ⟨⟨_, _, hstate.served hb ht hat i, fun j hj => ?_⟩,
      (h.bytes.trans (.allocated hb.toAnswers)).trans (.of_eq ht.heapTable ht.mem),
      ht.globals.trans h.globals⟩, fun hle => ?_⟩
    · show (if j = i then (⟨blockAddr b, size⟩ : ProcessAllocation) else al j).ptr = 0 ↔ _
      split_ifs with hji
      · exact iff_of_false (blockAddr_pos b) (by omega)
      · rw [hal j hj]
        omega
    · have hcount := k.freeBlocks_allocated b size
      have hone := requestBlocks_one hpos hle
      have hlt := Kernel.freeBlocks_allocated_lt hb.lt hb.free
        (show 0 < requestBlocks size by omega)
      have hsame : (k₂.put process (.process ((p.withRecords al).withAllocation i
          ⟨blockAddr b, size⟩))).freeBlocks = (k.allocated b size).freeBlocks :=
        Kernel.freeBlocks_congr ht.heapTable
      omega

end Injecting

theorem length_stringAt_le (m : ℕ → UInt8) : ∀ n a : ℕ, (stringAt m n a).length ≤ n
  | 0, _ => le_rfl
  | n + 1, a => by
    rw [stringAt]
    split_ifs
    · exact Nat.zero_le _
    · exact Nat.succ_le_succ (length_stringAt_le m n (a + 1))

/-- The loop from the argument at `a` on, with `i + 1` records in use : the state afterwards
when it succeeds, and that it does while there are records and blocks. -/
theorem processInjectArgumentsLoop_meets {v : ℕ} (hv : v < heapTotalBlocks)
    (hvf : k₁.table.IsFree v) (hlist : ArgumentList k₁ a nodes) : ∀ {fuel i : ℕ} {k : Kernel},
    nodes.length ≤ fuel → i + 1 ≤ maxProgramAllocations →
    Injecting k₁ process p t d f (i + 1) k →
    Meets True (processInjectArgumentsLoop process (blockAddr v) fuel a i) k fun res k' =>
      k'.globals = k₁.globals ∧
      ((res = 0 ∧ (i + 1 + nodes.length ≤ maxProgramAllocations ∧ nodes.length ≤ k.freeBlocks) ∧
          ∃ c, Injecting k₁ process p t d f c k') ∨
        res = -ENOMEM ∧
          ¬(i + 1 + nodes.length ≤ maxProgramAllocations ∧ nodes.length ≤ k.freeBlocks)) := by
  induction hlist with
  | nil =>
    intro fuel i k _ hi h
    have hdone : Meets True (return 0 : KernelM Int) k fun res k' => k'.globals = k₁.globals ∧
        ((res = 0 ∧ (i + 1 + 0 ≤ maxProgramAllocations ∧ 0 ≤ k.freeBlocks) ∧
          ∃ c, Injecting k₁ process p t d f c k') ∨
        res = -ENOMEM ∧ ¬(i + 1 + 0 ≤ maxProgramAllocations ∧ 0 ≤ k.freeBlocks)) :=
      Meets.pure_iff.mpr ⟨h.globals, .inl ⟨rfl, ⟨hi, Nat.zero_le _⟩, _, h⟩⟩
    cases fuel with
    | zero => exact Meets.ite_iff.mpr ⟨fun _ => hdone, fun h => absurd rfl h⟩
    | succ fuel => exact Meets.ite_iff.mpr ⟨fun _ => hdone, fun h => absurd rfl h⟩
  | @cons a nodes h0 hin hrest ih =>
    intro fuel i k hfuel hi h
    rw [List.length_cons] at hfuel ⊢
    obtain ⟨fuel, rfl⟩ := Nat.exists_eq_succ_of_ne_zero (by omega : fuel ≠ 0)
    refine Meets.ite_iff.mpr ⟨fun h' => absurd h' h0, fun _ => ?_⟩
    refine .bind (h.malloc (show 1 ≤ 512 by decide) (by decide)) ?_
    rintro res k₂ (⟨rfl, hglob, hwhy⟩ | ⟨b, hb, rfl, hbf, hlt, h₂, hcount⟩)
    · refine Meets.ite_iff.mpr ⟨fun _ => Meets.pure_iff.mpr ⟨hglob, .inr ⟨rfl, ?_⟩⟩,
        fun h' => absurd rfl h'⟩
      have := hwhy (by decide)
      omega
    · have hcount := hcount (by decide)
      refine Meets.ite_iff.mpr ⟨fun h' => absurd h' (blockAddr_pos b), fun _ => ?_⟩
      have hargv : (blockAddr v + 4 * i) % 4294967296 = blockAddr v + 4 * i := by
        have := blockAddr_lt hv
        unfold maxProgramAllocations at hlt
        omega
      have hlen := length_stringAt_le k₂.mem 511 a
      have h₃ : Injecting k₁ process p t d f (i + 1 + 1)
          (k₂.withBytes (blockAddr b) (stringAt k₂.mem 511 a ++ [0])) :=
        h₂.withBytes (j := 0) hb hbf (by simp; omega)
      have hfit : 4 * i + (wordBytes (blockAddr b)).length ≤ 4096 := by
        unfold maxProgramAllocations at hlt
        rw [show (wordBytes (blockAddr b)).length = 4 from rfl]
        omega
      have h₄ := h₃.withBytes hv hvf hfit
      rw [Meets.bind_iff, Meets.get_iff, Meets.bind_iff]
      refine .of_run_eq (Kernel.storeBytes_run (blockAddr_pos b) _) ?_
      rw [Meets.bind_iff, hargv]
      refine .of_run_eq (Kernel.storeBytes_run (by have := blockAddr_pos v; omega) _) ?_
      rw [Meets.bind_iff, Meets.get_iff, (ArgumentList.cons h0 hin hrest).next_eq h₄.bytes]
      refine (ih (by omega) (by omega) h₄).mono fun res k' ⟨hglob, hor⟩ => ⟨hglob, ?_⟩
      have hsame : ((k₂.withBytes (blockAddr b) (stringAt k₂.mem 511 a ++ [0])).withBytes
          (blockAddr v + 4 * i) (wordBytes (blockAddr b))).freeBlocks = k₂.freeBlocks :=
        Kernel.freeBlocks_congr rfl
      rcases hor with ⟨hres, hle, hc⟩ | ⟨hres, hno⟩
      · exact .inl ⟨hres, by omega, hc⟩
      · exact .inr ⟨hres, by omega⟩

/-- The process at `process` has no allocations, and no structure of it is free. -/
structure Unallocated (k : Kernel) (process : ℕ) (p : Process) (t : Task) (d : ℕ) (f : ℕ → ℕ) :
    Prop where
  at_process : ∃ e, ProcessAt k process p t d f e
  pointers : ∀ a, ProcessPointer process p t d f a → ¬k.Fresh a
  records : ∀ i < maxProgramAllocations, (p.allocations i).ptr = 0

theorem Unallocated.injecting (h : Unallocated k process p t d f) :
    Injecting k process p t d f 0 k where
  state := by
    obtain ⟨e, hat⟩ := h.at_process
    exact ⟨p.allocations, e, ⟨.refl _, hat, h.pointers, fun i hi => .inl (h.records i hi)⟩,
      fun i hi => iff_of_true (h.records i hi) (Nat.zero_le i)⟩
  bytes := .refl k
  globals := rfl

/-- There are records and blocks for `n` arguments and the array of their pointers. -/
def Kernel.HasRoomForArguments (k : Kernel) (n : ℕ) : Prop :=
  n + 1 ≤ maxProgramAllocations ∧ n + 1 ≤ k.freeBlocks

/-- `process_inject_arguments` succeeds exactly if there is room for the arguments. -/
theorem processInjectArguments_meets {fuel : ℕ} (h : Unallocated k process p t d f)
    (hlist : ArgumentList k a nodes) (hne : nodes ≠ []) (hfuel : nodes.length ≤ fuel) :
    Meets True (processInjectArguments fuel process a) k fun res k' => k'.globals = k.globals ∧
      (res = 0 ∧ k.HasRoomForArguments nodes.length ∨
        res = -ENOMEM ∧ ¬k.HasRoomForArguments nodes.length) := by
  have hcount : processCountCommandArguments k.mem fuel a = some nodes.length := by
    rw [processCountCommandArguments, hlist.chain.count, if_pos hfuel, Nat.zero_add]
  have hpos : 0 < nodes.length := List.length_pos_iff.mpr hne
  have hlen := hlist.length_le
  rw [processInjectArguments, Meets.bind_iff, Meets.get_iff, hcount, Meets.bind_iff]
  refine Meets.of_run_eq (a := nodes.length) (t := k) rfl ?_
  refine Meets.ite_iff.mpr ⟨fun h0 => absurd h0 hpos.ne', fun _ => ?_⟩
  have hsize : 4 * nodes.length % 4294967296 = 4 * nodes.length := Nat.mod_eq_of_lt (by omega)
  rw [hsize]
  refine .bind (h.injecting.malloc (by omega) (by omega)) ?_
  rintro res k₂ (⟨rfl, hglob, hwhy⟩ | ⟨v, hv, rfl, hvf, -, h₂, hfree⟩)
  · refine Meets.ite_iff.mpr ⟨fun _ => Meets.pure_iff.mpr ⟨hglob, .inr ⟨rfl, ?_⟩⟩,
      fun h' => absurd rfl h'⟩
    rintro ⟨hrec, hblocks⟩
    unfold maxProgramAllocations at hrec hwhy
    have := hwhy (by omega)
    omega
  · refine Meets.ite_iff.mpr ⟨fun h' => absurd h' (blockAddr_pos v), fun _ => ?_⟩
    refine .bind (processInjectArgumentsLoop_meets hv hvf hlist hfuel (by decide) h₂) ?_
    unfold Kernel.HasRoomForArguments
    rintro res k₃ ⟨hglob, ⟨rfl, ⟨hrec, hblocks⟩, c, h₃⟩ | ⟨rfl, hno⟩⟩
    · refine Meets.ite_iff.mpr ⟨fun h' => absurd h' (lt_irrefl 0), fun _ => ?_⟩
      obtain ⟨al, e, hstate, -⟩ := h₃.state
      have hat := hstate.at_process
      rw [Meets.bind_iff, Kernel.modifyProcess_meets hat.ne_zero hat.self, Meets.pure_iff]
      have hfree := hfree (by unfold maxProgramAllocations at hrec; omega)
      exact ⟨hglob, .inl ⟨rfl, by omega, by omega⟩⟩
    · refine Meets.ite_iff.mpr ⟨fun _ => Meets.pure_iff.mpr ⟨hglob, .inr ⟨rfl, ?_⟩⟩,
        fun h' => absurd (by decide) h'⟩
      rintro ⟨hrec, hblocks⟩
      have hfree := hfree (by unfold maxProgramAllocations at hrec; omega)
      exact hno ⟨by omega, by omega⟩

end Hyperion
