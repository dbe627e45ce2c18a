import Hyperion.SystemCall

/-!
# Reporting the arguments of a program

`isr80h_command8_get_program_arguments` translates the pointer that it is given, one address,
and stores two words there. They go to the memory of the caller exactly if the caller may write
them itself and they lie in one page, or in two with frames that follow each other
(`getProgramArguments_iff`).

The command is taken apart into the stores that it makes and their effect (`processGetArguments`,
`Kernel.stored`), so that it can be said where they go. `UserWritable` is what the processor asks of
a page when the program stores to it : both entries have the flags for it. The kernel asks nothing
and takes the address from the table, so that a pointer to a page that is not mapped goes to
whatever frame its entry has (`getProgramArguments_foreign`).
-/

namespace Hyperion

open Partial

variable {k : Kernel} {t : Task} {p : Process} {d v i flags : ℕ} {f e : ℕ → ℕ} {m : ℕ → UInt8}

/-! ## The call -/

/-- `*p = v`, byte by byte : the addresses and what is stored there. -/
def storesOfWord (p v : ℕ) : List (ℕ × UInt8) :=
  (wordBytes v).zipIdx.map fun x => ((p + x.2) % 4294967296, x.1)

/-- The stores that `process_get_arguments` makes. -/
def processGetArguments (p : Process) (argc argv : ℕ) : List (ℕ × UInt8) :=
  storesOfWord argc (asUnsigned p.arguments.argc) ++ storesOfWord argv p.arguments.argv

/-- `k` after the stores `ws`. -/
def Kernel.stored (k : Kernel) (ws : List (ℕ × UInt8)) : Kernel := { k with
  mem := ws.foldl (fun m w => Function.update m w.1 w.2) k.mem }

/-- `isr80h_command8_get_program_arguments`, with the stores that it makes. -/
def isr80hCommand8GetProgramArguments : KernelM (List (ℕ × UInt8)) := do
  let k ← get
  let task ← getTask k.currentTask
  let item ← taskGetStackItem k.currentTask 0
  let arguments ← taskVirtualAddressToPhysical k.currentTask item
  let process ← getProcess task.process
  let stores := processGetArguments process arguments ((arguments + 4) % 4294967296)
  modify fun k => k.stored stores
  return stores

/-! ## Whose memory is written -/

/-- The user may write the page `n` : both entries say so. -/
def UserWritable (f e : ℕ → ℕ) (n : ℕ) : Prop :=
  f (n / 1024) &&& userPageFlags = userPageFlags ∧ e n &&& userPageFlags = userPageFlags

instance (f e : ℕ → ℕ) (n : ℕ) : Decidable (UserWritable f e n) :=
  inferInstanceAs (Decidable (_ ∧ _))

/-- The stores go to the bytes from `v` on in the space of the caller, which it may write. -/
structure StoresOwn (f e : ℕ → ℕ) (v : ℕ) (stores : List (ℕ × UInt8)) : Prop where
  address : stores.map Prod.fst = (List.range 8).map fun i => translate e ((v + i) % 4294967296)
  writable : ∀ i < 8, UserWritable f e ((v + i) % 4294967296 / 4096)

/-- From `v` on the user may write 8 bytes, which lie in one page, or in two whose frames follow
each other. -/
def OwnsArguments (f e : ℕ → ℕ) (v : ℕ) : Prop :=
  UserWritable f e (v / 4096) ∧
    (v % 4096 ≤ 4088 ∨ UserWritable f e ((v + 7) % 4294967296 / 4096) ∧
      entryAddress (e ((v + 7) % 4294967296 / 4096)) =
        (entryAddress (e (v / 4096)) + 4096) % 4294967296)

instance (f e : ℕ → ℕ) (v : ℕ) : Decidable (OwnsArguments f e v) :=
  inferInstanceAs (Decidable (_ ∧ (_ ∨ _ ∧ _)))

theorem entryAddress_lt (x : ℕ) : entryAddress x < 4294967296 :=
  Nat.lt_of_le_of_lt Nat.and_le_right (by decide)

/-- What follows a translated address is what the next addresses lead to exactly if the second
page, where there is one, follows the first. -/
theorem ownsArguments_iff (hv : v < 4294967296) : OwnsArguments f e v ↔
    ∀ i < 8, (translate e v + i) % 4294967296 = translate e ((v + i) % 4294967296) ∧
      UserWritable f e ((v + i) % 4294967296 / 4096) := by
  have hframe := entryAddress_lt (e (v / 4096))
  have hframe' := entryAddress_lt (e ((v + 7) % 4294967296 / 4096))
  constructor
  · rintro ⟨hfirst, hrest⟩ i hi
    by_cases hpage : v % 4096 + i < 4096
    · have hsame : (v + i) % 4294967296 / 4096 = v / 4096 := by omega
      refine ⟨?_, hsame ▸ hfirst⟩
      unfold translate
      rw [hsame]
      omega
    · have hsame : (v + i) % 4294967296 / 4096 = (v + 7) % 4294967296 / 4096 := by omega
      obtain hle | ⟨hlast, hnext⟩ := hrest
      · omega
      · refine ⟨?_, hsame ▸ hlast⟩
        unfold translate
        rw [hsame]
        omega
  · intro h
    obtain ⟨-, hfirst⟩ := h 0 (by decide)
    rw [Nat.add_zero, Nat.mod_eq_of_lt hv] at hfirst
    refine ⟨hfirst, ?_⟩
    by_cases hpage : v % 4096 ≤ 4088
    · exact .inl hpage
    · obtain ⟨haddr, hlast⟩ := h 7 (by decide)
      refine .inr ⟨hlast, ?_⟩
      unfold translate at haddr
      omega

/-- The addresses of the stores follow each other. -/
theorem processGetArguments_address (p : Process) (a : ℕ) :
    (processGetArguments p a ((a + 4) % 4294967296)).map Prod.fst =
      (List.range 8).map fun i => (a + i) % 4294967296 := by
  simp only [processGetArguments, storesOfWord, wordBytes, List.zipIdx_cons, List.zipIdx_nil,
    List.map_cons, List.map_nil, List.cons_append, List.nil_append, Nat.mod_add_mod, Nat.add_assoc]
  rfl

/-! ## The call -/

/-- The pointer of the caller is translated, and stores are made there. -/
theorem Caller.getProgramArguments_run (h : Caller k t d f e v) (h0 : t.process ≠ 0)
    (hp : k.store t.process = some (.process p)) : ∃ k',
    isr80hCommand8GetProgramArguments k = some (processGetArguments p (translate e v)
      ((translate e v + 4) % 4294967296), k') ∧
    k'.mem = (k.stored (processGetArguments p (translate e v)
      ((translate e v + 4) % 4294967296))).mem := by
  obtain ⟨c, hitem⟩ := h.item_run
  generalize hk₂ : ({ k with currentDirectory := c } : Kernel) = k₂ at hitem
  have hstore : k₂.store = k.store := by rw [← hk₂]
  have hmaps : Maps k₂ t.pageDirectory d f e := h.maps.congr fun a _ => congrFun hstore a
  have hmeets : Meets True isr80hCommand8GetProgramArguments k fun stores k' =>
      stores = processGetArguments p (translate e v) ((translate e v + 4) % 4294967296) ∧
      k'.mem = (k.stored stores).mem := by
    rw [isr80hCommand8GetProgramArguments, Meets.bind_iff, Meets.get_iff, Meets.bind_iff,
      Kernel.getTask_meets h.ne_zero h.self, Meets.bind_iff]
    refine .of_run_eq hitem ?_
    rw [taskVirtualAddressToPhysical, Meets.bind_iff, Meets.bind_iff,
      Kernel.getTask_meets h.ne_zero (hstore ▸ h.self), Meets.bind_iff,
      Kernel.getChunk_meets hmaps.chunk_ne hmaps.chunk]
    refine .of_run_eq (hmaps.pagingGetPhysicalAddress_run h.lt) ?_
    rw [Meets.bind_iff, Kernel.getProcess_meets h0 (hstore ▸ hp), Meets.bind_iff,
      Meets.modify_iff, Meets.pure_iff]
    exact ⟨rfl, by rw [Kernel.stored, Kernel.stored, ← hk₂]⟩
  obtain ⟨stores, k', hrun, rfl, hmem⟩ := hmeets.exists_result
  exact ⟨k', hrun, hmem⟩

/-- The call stores to the memory of its caller only exactly if the caller may write 8 bytes
from its pointer on, in frames that follow each other. -/
theorem getProgramArguments_iff (h : Caller k t d f e v) (h0 : t.process ≠ 0)
    (hp : k.store t.process = some (.process p)) : ∃ stores k',
      isr80hCommand8GetProgramArguments k = some (stores, k') ∧
      k'.mem = (k.stored stores).mem ∧ (StoresOwn f e v stores ↔ OwnsArguments f e v) := by
  obtain ⟨k', hrun, hmem⟩ := h.getProgramArguments_run h0 hp
  refine ⟨_, k', hrun, hmem, ?_⟩
  rw [ownsArguments_iff h.lt]
  constructor
  · rintro ⟨haddr, hwrite⟩ i hi
    rw [processGetArguments_address] at haddr
    exact ⟨List.map_inj_left.mp haddr i (List.mem_range.mpr hi), hwrite i hi⟩
  · refine fun h' => ⟨?_, fun i hi => (h' i hi).2⟩
    rw [processGetArguments_address]
    exact List.map_inj_left.mpr fun i hi => (h' i (List.mem_range.mp hi)).1

/-- A task that may write all pages asks for its arguments at 0x600000. -/
theorem getProgramArguments_own : ∃ stores k',
    isr80hCommand8GetProgramArguments (Kernel.calling userPageFlags (stackMemory 0x600000)) =
      some (stores, k') ∧
    StoresOwn (fun i => (12288 + i * 4096) ||| userPageFlags) (fun n => n * 4096 ||| userPageFlags)
      0x600000 stores := by
  have hcaller := Kernel.calling_caller (v := 0x600000) userPageFlags (stackMemory 0x600000)
    (by decide +kernel)
  obtain ⟨stores, k', hrun, -, hiff⟩ := getProgramArguments_iff hcaller (by decide) rfl
  exact ⟨stores, k', hrun, hiff.mpr (by decide)⟩

/-- In a new space, where nothing is mapped, the call stores in a page that the task may not
write. -/
theorem getProgramArguments_foreign : ∃ stores k',
    isr80hCommand8GetProgramArguments (Kernel.calling (pagingIsPresent ||| pagingAccessFromAll)
      (stackMemory 0x100000)) = some (stores, k') ∧
    stores.map Prod.fst = (List.range 8).map (fun i => 0x100000 + i) ∧
    ¬StoresOwn (fun i => (12288 + i * 4096) ||| userPageFlags)
      (fun n => n * 4096 ||| (pagingIsPresent ||| pagingAccessFromAll)) 0x100000 stores := by
  have hcaller := Kernel.calling_caller (v := 0x100000) (pagingIsPresent ||| pagingAccessFromAll)
    (stackMemory 0x100000) (by decide +kernel)
  obtain ⟨k', hrun, -⟩ := hcaller.getProgramArguments_run (by decide) rfl
  refine ⟨_, k', hrun, ?_, fun hown => ?_⟩
  · rw [processGetArguments_address]
    decide
  · exact absurd (hown.writable 0 (by decide)).2 (by decide)

end Hyperion
