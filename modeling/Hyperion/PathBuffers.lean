import Hyperion.ArgumentsArrive
import Hyperion.CopyString
import Hyperion.SystemCall

/-!
# The path buffers

The two handlers that start a program put `"0:/"` and the name of the program into a local
array of 108 bytes. Each bounds the name by the size of the array and not by what the prefix
leaves of it, so the array overflows exactly for names of more than 104 characters
(`commandPaths_hold_iff`).

`LocalArray` has the bytes of an array and the indexes that were written, also those behind its
end, so that the overflow is seen and what is read back is what C would read. `strcpy` and
`strncpy` work on it, with the lemmas that say which indexes they write
(`LocalArray.mem_strcpy_written`, `LocalArray.strncpy_eq`). `processLoadStartArrays` and
`invokeSystemCommandPath` are the handlers up to the path, for a name that a task passes
(`LoadStartCall`, `InvokeCall`) : the first copies it from the task's space, through a page that is
borrowed, and the second has it in a list of arguments.

The model of the handlers has the path as a string, and stops where it would not fit. That this is
the same is shown at the end of the module : with the path inside the array, going on with the array
is going on with the string (`isr80hCommand6ProcessLoadStart_eq`, `invokeSystemCommand_eq`).
-/

namespace Hyperion

open CString FreeRun Partial

variable {k k' : Kernel} {t : Task} {d virt root : ℕ} {f e : ℕ → ℕ} {s : List UInt8}

/-! ## Local arrays -/

/-- A local array : its bytes, and the indexes that were written, the last one first. What is
stored behind its end is recorded, and changes nothing else. -/
structure LocalArray where
  byte : ℕ → UInt8
  written : List ℕ

namespace LocalArray

/-- An array that nothing was stored in, with the bytes `g` that were there before. -/
def fresh (g : ℕ → UInt8) : LocalArray := ⟨g, []⟩

/-- `array[i] = c`. -/
def store (dest : LocalArray) (i : ℕ) (c : UInt8) : LocalArray :=
  ⟨fun j => if j = i then c else dest.byte j, i :: dest.written⟩

/-- `strcpy(dest + i, src)`. -/
def strcpy : LocalArray → ℕ → List UInt8 → LocalArray
  | dest, i, [] => dest.store i 0
  | dest, i, c :: src => strcpy (dest.store i c) (i + 1) src

/-- The loop of `strncpy`, `fuel` rounds, and the NUL. -/
def strncpyLoop : LocalArray → (fuel i : ℕ) → List UInt8 → LocalArray
  | dest, 0, i, _ => dest.store i 0
  | dest, _ + 1, i, [] => dest.store i 0
  | dest, fuel + 1, i, c :: src => strncpyLoop (dest.store i c) fuel (i + 1) src

/-- `strncpy(dest + i, src, count)`. -/
def strncpy (dest : LocalArray) (i : ℕ) (src : List UInt8) (count : Int) : LocalArray :=
  dest.strncpyLoop (count - 1).toNat i src

variable {i j : ℕ}

@[simp] theorem store_byte (dest : LocalArray) (c : UInt8) :
    (dest.store i c).byte j = if j = i then c else dest.byte j := rfl

@[simp] theorem store_written (dest : LocalArray) (c : UInt8) :
    (dest.store i c).written = i :: dest.written := rfl

/-- The loop copies at most `fuel` characters, by recursion on them. -/
theorem strncpyLoop_eq : ∀ (src : List UInt8) (fuel i : ℕ) (dest : LocalArray),
    dest.strncpyLoop fuel i src = dest.strcpy i (src.take fuel)
  | _, 0, _, _ => rfl
  | [], _ + 1, _, _ => rfl
  | _ :: src, fuel + 1, i, _ => strncpyLoop_eq src fuel (i + 1) _

/-- `strncpy` copies one character less than its count, and a NUL. -/
theorem strncpy_eq (dest : LocalArray) (i : ℕ) (src : List UInt8) (count : Int) :
    dest.strncpy i src count = dest.strcpy i (src.take (count - 1).toNat) :=
  strncpyLoop_eq src _ i dest

/-- What is written : the characters and the NUL. -/
theorem mem_strcpy_written : ∀ (src : List UInt8) (i : ℕ) (dest : LocalArray),
    j ∈ (dest.strcpy i src).written ↔ (i ≤ j ∧ j ≤ i + src.length) ∨ j ∈ dest.written
  | [], i, dest => by
    rw [strcpy, store_written, List.mem_cons, List.length_nil]
    refine or_congr_left ⟨?_, ?_⟩ <;> omega
  | c :: src, i, dest => by
    rw [strcpy, mem_strcpy_written src (i + 1), store_written, List.mem_cons, List.length_cons,
      ← or_assoc]
    refine or_congr_left ⟨?_, ?_⟩ <;> omega

/-- The bytes of a copy, by recursion on the string. -/
theorem strcpy_byte : ∀ (src : List UInt8) (i : ℕ) (dest : LocalArray),
    (dest.strcpy i src).byte j =
      if i ≤ j ∧ j ≤ i + src.length then src.getD (j - i) 0 else dest.byte j
  | [], i, dest => by
    rw [strcpy, store_byte]
    by_cases hj : j = i
    · rw [if_pos hj, if_pos (by simp [hj])]
      rfl
    · rw [if_neg hj, if_neg (by rw [List.length_nil]; omega)]
  | c :: src, i, dest => by
    rw [strcpy, strcpy_byte src (i + 1), store_byte, List.length_cons]
    by_cases hj : j = i
    · subst hj
      rw [if_neg (by omega), if_pos rfl, if_pos (by omega), Nat.sub_self]
      rfl
    · by_cases hin : i + 1 ≤ j ∧ j ≤ i + 1 + src.length
      · rw [if_pos hin, if_pos (by omega), show j - i = j - (i + 1) + 1 by omega,
          List.getD_cons_succ]
      · rw [if_neg hin, if_neg hj, if_neg (by omega)]

/-- The string is where it was stored. -/
theorem strcpy_stringIn (hs : ∀ c ∈ s, c ≠ 0) (i : ℕ) (dest : LocalArray) :
    StringIn (dest.strcpy i s).byte i s where
  ne_zero := hs
  byte j hj := by rw [strcpy_byte, if_pos (by omega), Nat.add_sub_cancel_left]

end LocalArray

/-- What a copy of at most `n` characters of a string has. -/
theorem stringAt_eq_take {m : ℕ → UInt8} : ∀ {s : List UInt8} {n a : ℕ}, StringIn m a s →
    stringAt m n a = s.take n
  | _, 0, _, _ => (List.take_zero).symm
  | [], n + 1, a, h => by rw [stringAt, if_pos h.nul, List.take_nil]
  | c :: s, n + 1, a, h => by
    rw [stringAt, h.head, if_neg h.head_ne, stringAt_eq_take h.tail, List.take_succ_cons]

/-! ## The handlers -/

/-- The local arrays of `isr80h_command6_process_load_start`. -/
structure LoadStartArrays where
  filename : LocalArray
  path : LocalArray

/-- `isr80h_command6_process_load_start` as far as it fills its arrays, if it does not leave
before. -/
def processLoadStartArrays (arrays : LoadStartArrays) : KernelM (Option LoadStartArrays) := do
  let k ← get
  let filenameUserPtr ← taskGetStackItem k.currentTask 0
  let (res, tmp) ← copyStringFromTask k.currentTask filenameUserPtr maxPath
  if res < 0 then return none
  -- the last step of `copy_string_from_task`
  let filename := arrays.filename.strncpy 0 tmp maxPath
  let path := arrays.path.strcpy 0 drivePrefix
  return some ⟨filename, path.strcpy 3 (stringAt filename.byte maxPath 0)⟩

/-- `isr80h_command7_invoke_system_command` with the list at `arguments` as far as it fills
`path`, if it does not leave before. -/
def invokeSystemCommandPath (path : LocalArray) (arguments : ℕ) : KernelM (Option LocalArray) := do
  let k ← get
  if arguments = 0 ∨ k.mem arguments = 0 then return none
  let path := path.strcpy 0 drivePrefix
  return some (path.strncpy 3 (stringAt k.mem (maxPath - 1) arguments) maxPath)

/-! ## The path -/

/-- `path` with the prefix and what the handlers take of a name. -/
def LocalArray.withName (path : LocalArray) (name : List UInt8) : LocalArray :=
  (path.strcpy 0 drivePrefix).strcpy 3 (name.take (maxPath - 1))

/-- `path` was only written inside, and is a string of `"0:/"` and a prefix of `name`. -/
structure PathHolds (path : LocalArray) (name : List UInt8) : Prop where
  inside : ∀ i ∈ path.written, i < maxPath
  string : ∃ n, n + 4 ≤ maxPath ∧ StringIn path.byte 0 (drivePrefix ++ name.take n)

/-- The writes to `path` stay inside up to 104 characters. -/
theorem withName_inside_iff (g : ℕ → UInt8) :
    (∀ i ∈ ((LocalArray.fresh g).withName s).written, i < maxPath) ↔ s.length ≤ 104 := by
  have hlast : (s.take (maxPath - 1)).length = min 107 s.length := List.length_take
  have hprefix : drivePrefix.length = 3 := rfl
  have hmem (i : ℕ) : i ∈ ((LocalArray.fresh g).withName s).written ↔
      i ≤ 3 + (s.take (maxPath - 1)).length := by
    rw [LocalArray.withName, LocalArray.mem_strcpy_written, LocalArray.mem_strcpy_written, hprefix,
      LocalArray.fresh]
    simp only [List.not_mem_nil, or_false]
    omega
  constructor
  · intro h
    have hlt : _ < 108 := h _ ((hmem _).mpr le_rfl)
    omega
  · intro hlen i hi
    have hle := (hmem i).mp hi
    show i < 108
    omega

/-- The drive has no NUL. -/
theorem drivePrefix_ne_zero : ∀ c ∈ drivePrefix, c ≠ 0 := by
  simp [drivePrefix]

/-- The path is read back as the drive and the name. -/
theorem withName_stringIn (hs : ∀ c ∈ s, c ≠ 0) (path : LocalArray) :
    StringIn (path.withName s).byte 0 (drivePrefix ++ s.take (maxPath - 1)) := by
  have hprefix : drivePrefix.length = 3 := rfl
  refine ⟨fun c hc => ?_, fun i hi => ?_⟩
  · rcases List.mem_append.mp hc with hc | hc
    · exact drivePrefix_ne_zero c hc
    · exact hs c (List.mem_of_mem_take hc)
  · rw [List.length_append, hprefix] at hi
    rw [Nat.zero_add, LocalArray.withName, LocalArray.strcpy_byte]
    by_cases h3 : i < 3
    · rw [if_neg (by omega), LocalArray.strcpy_byte, hprefix, if_pos (by omega),
        List.getD_append _ _ _ _ h3, Nat.sub_zero]
    · rw [if_pos (by omega), List.getD_append_right _ _ _ _ (by omega), hprefix]

/-- The path is as it should be exactly for names of at most 104 characters. -/
theorem withName_holds_iff (hs : ∀ c ∈ s, c ≠ 0) (g : ℕ → UInt8) :
    PathHolds ((LocalArray.fresh g).withName s) s ↔ s.length ≤ 104 := by
  constructor
  · intro h
    exact (withName_inside_iff g).mp h.inside
  · intro hlen
    have hstr := withName_stringIn hs (LocalArray.fresh g)
    refine ⟨(withName_inside_iff g).mpr hlen, maxPath - 4, le_rfl, ?_⟩
    have hall : s.take (maxPath - 1) = s := List.take_of_length_le (show s.length ≤ 107 by omega)
    have hsome : s.take (maxPath - 4) = s := List.take_of_length_le hlen
    rw [hall] at hstr
    rwa [hsome]

/-! ## The calls -/

/-- The current task passes the string `s` of its space, at `virt`. It does not lie in the page
that is mapped over for the copy. -/
structure LoadStartCall (k : Kernel) (t : Task) (d : ℕ) (f e : ℕ → ℕ) (virt : ℕ) (s : List UInt8) :
    Prop extends Caller k t d f e virt where
  kernel : ∃ dk, KernelSpace k dk
  not_fresh : ¬k.Fresh k.currentTask
  space_not_fresh : ∀ a, SpacePointer t.pageDirectory d f a → ¬k.Fresh a
  string : ∀ b, FirstRun k.table.IsFree heapTotalBlocks 1 b →
    UserString k.mem e (blockAddr b / 4096) virt s
  ne_zero_of_mem : ∀ c ∈ s, c ≠ 0

/-- The first block that is free. -/
theorem Kernel.firstRun_one {b : ℕ} (hb : b < heapTotalBlocks) (hf : k.table.IsFree b)
    (hfirst : ∀ c < b, ¬k.table.IsFree c) : FirstRun k.table.IsFree heapTotalBlocks 1 b where
  inside := hb
  run i hi hi' := by
    obtain rfl : i = b := by omega
    exact hf
  first c hc hrun := hfirst c hc (hrun c le_rfl (Nat.lt_succ_self c))

/-- The copy has been cut already. -/
theorem LocalArray.strncpy_take {n : ℕ} (dest : LocalArray) (s : List UInt8) :
    dest.strncpy 0 (s.take (n - 1)) n = dest.strcpy 0 (s.take (n - 1)) := by
  rw [strncpy_eq, show ((n : Int) - 1).toNat = n - 1 by omega, List.take_take, Nat.min_self]

/-- What was copied is read back. -/
theorem LocalArray.stringAt_strcpy {n : ℕ} (hs : ∀ c ∈ s, c ≠ 0) (dest : LocalArray) :
    stringAt (dest.strcpy 0 (s.take (n - 1))).byte n 0 = s.take (n - 1) := by
  have hcut : ∀ c ∈ s.take (n - 1), c ≠ 0 := fun c hc => hs c (List.mem_of_mem_take hc)
  rw [stringAt_eq_take (strcpy_stringIn hcut 0 dest)]
  exact List.take_of_length_le ((List.length_take_le _ _).trans (Nat.sub_le _ _))

/-- The string is copied if there is a block for it. -/
theorem LoadStartCall.copy (h : LoadStartCall k t d f e virt s) {n : ℕ} (hn : 1 ≤ n)
    (hn' : n < 4096) : ∃ k₂, taskGetStackItem k.currentTask 0 k = some (virt, k₂) ∧
      ((k.freeBlocks = 0 ∧
        copyStringFromTask k.currentTask virt n k₂ = some ((-ENOMEM, []), k₂)) ∨
      (k.freeBlocks ≠ 0 ∧ ∃ k',
        copyStringFromTask k.currentTask virt n k₂ = some ((0, s.take (n - 1)), k'))) := by
  obtain ⟨c, hitem⟩ := h.item_run
  obtain ⟨dk, hkernel⟩ := h.kernel
  generalize hk₂ : ({ k with currentDirectory := c } : Kernel) = k₂ at hitem
  refine ⟨k₂, hitem, ?_⟩
  have htask : TaskAt k₂ k.currentTask t d f e := by
    subst hk₂
    exact ⟨h.ne_zero, h.self, h.maps.congr fun _ _ => rfl, h.not_fresh, h.space_not_fresh⟩
  have hspace : KernelSpace k₂ dk := by
    subst hk₂
    exact ⟨hkernel.ne_zero, hkernel.store, hkernel.not_fresh⟩
  have hheap : k₂.heapTable = k.heapTable := by rw [← hk₂]
  have hcount : k₂.freeBlocks = k.freeBlocks := Kernel.freeBlocks_congr hheap
  rw [← hcount]
  rcases Kernel.kzalloc_one k₂ hn hn'.le with ⟨b, hb, hf, hfirst, -⟩ | ⟨hnull, hall⟩
  · have hrun := Kernel.firstRun_one hb hf hfirst
    have hstr : UserString k₂.mem e (blockAddr b / 4096) virt s := by
      subst hk₂
      exact h.string b hrun
    obtain ⟨k', hcopy⟩ : ∃ k', copyStringFromTask k.currentTask virt n k₂ =
        some ((0, s.take ((n : Int) - 1).toNat), k') :=
      copyStringFromTask_run htask hspace hrun (by omega) (by omega) hstr h.lt
    rw [show ((n : Int) - 1).toNat = n - 1 by omega] at hcopy
    refine .inr ⟨?_, k', hcopy⟩
    have := Kernel.le_freeBlocks (k := k₂) (n := 1) (fun i hi hi' => hrun.run i hi hi') hb
    omega
  · refine .inl ⟨?_, ?_⟩
    · by_contra hne
      obtain ⟨b, hb, hf⟩ := Kernel.exists_free (Nat.pos_of_ne_zero hne)
      exact hall b hb hf
    · rw [copyStringFromTask_eq, if_neg (by omega), run_bind,
        asUnsigned_natCast (show n < 4294967296 by omega), hnull]
      rfl

/-- The handler goes on if there was a block for the copy. -/
theorem LoadStartCall.run (h : LoadStartCall k t d f e virt s) (arrays : LoadStartArrays) :
    (k.freeBlocks = 0 ∧ ∃ k', processLoadStartArrays arrays k = some (none, k')) ∨
      (k.freeBlocks ≠ 0 ∧ ∃ k', processLoadStartArrays arrays k = some (some
        ⟨arrays.filename.strcpy 0 (s.take (maxPath - 1)), arrays.path.withName s⟩, k')) := by
  obtain ⟨k₂, hitem, ⟨hfull, hcopy⟩ | ⟨hfree, k', hcopy⟩⟩ :=
    h.copy (show 1 ≤ maxPath by decide) (show maxPath < 4096 by decide)
  · refine .inl ⟨hfull, k₂, ?_⟩
    simp only [processLoadStartArrays, run_bind, run_get, Option.bind_some, hitem, hcopy]
    rfl
  · refine .inr ⟨hfree, k', ?_⟩
    simp only [processLoadStartArrays, run_bind, run_get, Option.bind_some, hitem, hcopy,
      if_neg (lt_irrefl (0 : Int)), run_pure, LocalArray.strncpy_take,
      LocalArray.stringAt_strcpy h.ne_zero_of_mem]
    rfl

/-- The current task passes the string `s`, which is at the physical address `root`. -/
structure InvokeCall (k : Kernel) (root : ℕ) (s : List UInt8) : Prop where
  fetch : ∃ k', commandArguments k = some (root, k')
  string : root ≠ 0 → StringIn k.mem root s

/-- The call leaves before the path, or builds it. -/
theorem InvokeCall.run (h : InvokeCall k root s) (path : LocalArray) :
    ((root = 0 ∨ s = []) ∧
      ∃ k', (commandArguments >>= invokeSystemCommandPath path) k = some (none, k')) ∨
      (root ≠ 0 ∧ s ≠ [] ∧ ∃ k', (commandArguments >>= invokeSystemCommandPath path) k =
        some (some (path.withName s), k')) := by
  obtain ⟨k', hroot⟩ := h.fetch
  have hmem : k'.mem = k.mem := by rw [commandArguments_same hroot]
  rw [run_bind, hroot, Option.bind_some, invokeSystemCommandPath, run_bind, run_get,
    Option.bind_some, hmem]
  by_cases h0 : root = 0
  · exact .inl ⟨.inl h0, k', by rw [if_pos (.inl h0), run_pure]⟩
  · have hstr := h.string h0
    cases s with
    | nil => exact .inl ⟨.inr rfl, k', by rw [if_pos (.inr hstr.nul), run_pure]⟩
    | cons c s =>
      have hno : ¬(root = 0 ∨ k.mem root = 0) := by
        rw [hstr.head]
        exact not_or.mpr ⟨h0, hstr.head_ne⟩
      refine .inr ⟨h0, List.cons_ne_nil c s, k', ?_⟩
      rw [if_neg hno, run_pure, LocalArray.strncpy_eq, stringAt_eq_take hstr,
        show ((maxPath : Int) - 1).toNat = maxPath - 1 from rfl, List.take_take, Nat.min_self]
      rfl

/-- What `copy_string_from_task` stores in the array is inside it. -/
theorem filename_inside (g : ℕ → UInt8) :
    ∀ i ∈ ((LocalArray.fresh g).strcpy 0 (s.take (maxPath - 1))).written, i < maxPath := by
  intro i hi
  have hlen : (s.take (maxPath - 1)).length ≤ 107 := List.length_take_le _ _
  rcases (LocalArray.mem_strcpy_written _ _ _).mp hi with hin | hin
  · show i < 108
    omega
  · exact absurd hin List.not_mem_nil

/-- What command 6 does to its path. -/
theorem LoadStartCall.path_holds_iff (h : LoadStartCall k t d f e virt s) (g₁ g₂ : ℕ → UInt8) :
    ∃ r k', processLoadStartArrays ⟨.fresh g₁, .fresh g₂⟩ k = some (r, k') ∧
      ((∀ arrays ∈ r, (∀ i ∈ arrays.filename.written, i < maxPath) ∧ PathHolds arrays.path s) ↔
        k.freeBlocks = 0 ∨ s.length ≤ 104) := by
  rcases h.run ⟨.fresh g₁, .fresh g₂⟩ with ⟨hfull, k', hrun⟩ | ⟨hfree, k', hrun⟩
  · exact ⟨none, k', hrun, iff_of_true (fun _ hr => nomatch hr) (.inl hfull)⟩
  · refine ⟨_, k', hrun, ?_⟩
    rw [or_iff_right hfree, ← withName_holds_iff h.ne_zero_of_mem g₂]
    constructor
    · exact fun hall => (hall _ rfl).2
    · rintro hpath _ ⟨⟩
      exact ⟨filename_inside g₁, hpath⟩

/-- What command 7 does to its path. -/
theorem InvokeCall.path_holds_iff (h : InvokeCall k root s) (g : ℕ → UInt8) :
    ∃ r k', (commandArguments >>= invokeSystemCommandPath (.fresh g)) k = some (r, k') ∧
      ((∀ path ∈ r, PathHolds path s) ↔ root = 0 ∨ s.length ≤ 104) := by
  rcases h.run (.fresh g) with ⟨hleave, k', hrun⟩ | ⟨h0, -, k', hrun⟩
  · refine ⟨none, k', hrun, iff_of_true (fun _ hr => nomatch hr) (hleave.imp_right ?_)⟩
    rintro rfl
    exact Nat.zero_le _
  · refine ⟨_, k', hrun, ?_⟩
    rw [or_iff_right h0, ← withName_holds_iff (h.string h0).ne_zero g]
    constructor
    · exact fun hall => hall _ rfl
    · rintro hpath _ ⟨⟩
      exact hpath

/-- The buffers of the two handlers hold exactly for names of at most 104 characters, unless
there is no block to copy the name to, or no list. -/
theorem commandPaths_hold_iff {k₇ : Kernel} {s₇ : List UInt8} (h : LoadStartCall k t d f e virt s)
    (h₇ : InvokeCall k₇ root s₇) (g₁ g₂ g₇ : ℕ → UInt8) :
    (∃ r k', processLoadStartArrays ⟨.fresh g₁, .fresh g₂⟩ k = some (r, k') ∧
      ((∀ arrays ∈ r, (∀ i ∈ arrays.filename.written, i < maxPath) ∧ PathHolds arrays.path s) ↔
        k.freeBlocks = 0 ∨ s.length ≤ 104)) ∧
    ∃ r k', (commandArguments >>= invokeSystemCommandPath (.fresh g₇)) k₇ = some (r, k') ∧
      ((∀ path ∈ r, PathHolds path s₇) ↔ root = 0 ∨ s₇.length ≤ 104) :=
  ⟨h.path_holds_iff g₁ g₂, h₇.path_holds_iff g₇⟩

/-! ## Names -/

/-- The name `s` at 0x600000, and a pointer to it on the stack of `Kernel.calling`. -/
def namedMemory (s : List UInt8) : ℕ → UInt8 := fun a =>
  if 0x600000 ≤ a ∧ a < 0x600000 + s.length then s.getD (a - 0x600000) 0 else stackMemory 0x600000 a

/-- The name is in the memory. -/
theorem namedMemory_stringIn (hs : ∀ c ∈ s, c ≠ 0) (hlen : s.length < 0x200000) :
    StringIn (namedMemory s) 0x600000 s where
  ne_zero := hs
  byte i hi := by
    rcases Nat.lt_or_eq_of_le hi with hlt | rfl
    · exact (if_pos (by omega)).trans (by rw [Nat.add_sub_cancel_left])
    · rw [List.getD_eq_default _ _ le_rfl]
      exact (if_neg (by omega)).trans (if_pos (by omega))

/-- The pages of `Kernel.calling` lead to themselves. -/
theorem translate_calling {a : ℕ} (ha : a < 4294967296) :
    translate (fun n => n * 4096 ||| userPageFlags) a = a := by
  have hentry : (fun n => n * 4096 ||| userPageFlags) (a / 4096) =
      (a / 4096 * 4096) ||| userPageFlags := rfl
  rw [translate_of_entry hentry (by omega) (by omega) (by decide)]
  omega

/-- The structures of `Kernel.calling` are below the heap. -/
theorem Kernel.calling_not_fresh {m : ℕ → UInt8} {a : ℕ} (ha : a < heapAddress) :
    ¬(Kernel.calling userPageFlags m).Fresh a := by
  rintro ⟨b, -, rfl, -⟩
  unfold blockAddr at ha
  omega

/-- There is a block for the copy. -/
theorem Kernel.calling_freeBlocks (m : ℕ → UInt8) :
    1 ≤ (Kernel.calling userPageFlags m).freeBlocks := by
  have hfree : ∀ b, 0 ≤ b → b < 0 + 1 → (Kernel.calling userPageFlags m).table.IsFree b :=
    fun _ _ _ => rfl
  exact Kernel.le_freeBlocks hfree (by decide)

/-- The task passes the name to command 6. -/
theorem Kernel.calling_loadStartCall (hs : ∀ c ∈ s, c ≠ 0) (hlen : s.length < 0x200000)
    (hitem : (taskGetStackItem 0x901000 0
      (Kernel.calling userPageFlags (namedMemory s))).map Prod.fst = some 0x600000) :
    LoadStartCall (Kernel.calling userPageFlags (namedMemory s)) callingTask 8192
      (fun i => (12288 + i * 4096) ||| userPageFlags) (fun n => n * 4096 ||| userPageFlags)
      0x600000 s where
  toCaller := Kernel.calling_caller _ _ hitem
  kernel := ⟨8192, show (4096 : ℕ) ≠ 0 by decide, rfl,
    Kernel.calling_not_fresh (a := 4096) (by decide)⟩
  not_fresh := Kernel.calling_not_fresh (a := 0x901000) (by decide)
  space_not_fresh a ha := by
    refine Kernel.calling_not_fresh ?_
    rcases ha with rfl | rfl | ⟨i, hi, rfl⟩
    · decide
    · decide
    · rw [entryAddress_or (by omega) (by omega) (by decide)]
      unfold heapAddress
      omega
  string b _ := by
    have hstr := namedMemory_stringIn hs hlen
    have haddr (i : ℕ) (hi : i ≤ s.length) : (0x600000 + i) % 4294967296 = 0x600000 + i := by omega
    have hpage (i : ℕ) (hi : i ≤ s.length) : (0x600000 + i) / 4096 ≠ blockAddr b / 4096 := by
      unfold blockAddr heapAddress
      omega
    refine ⟨hs, fun i hi => ?_, fun i hi => ?_, fun i hi => ?_, fun i hi => ?_⟩
    · rw [or_and_flags (Nat.mul_mod_left _ _) (by decide)]
      decide
    · rw [haddr i hi, translate_calling (by omega)]
      exact hstr.byte i hi
    · rw [haddr i hi]
      exact hpage i hi
    · rw [haddr i hi, translate_calling (by omega)]
      exact hpage i hi
  ne_zero_of_mem := hs

/-- And to command 7. -/
theorem Kernel.calling_invokeCall (hs : ∀ c ∈ s, c ≠ 0) (hlen : s.length < 0x200000)
    (hfetch : (commandArguments (Kernel.calling userPageFlags (namedMemory s))).map Prod.fst =
      some 0x600000) :
    InvokeCall (Kernel.calling userPageFlags (namedMemory s)) 0x600000 s where
  fetch := by
    obtain ⟨⟨root, k'⟩, hrun, rfl⟩ := Option.map_eq_some_iff.mp hfetch
    exact ⟨k', hrun⟩
  string _ := namedMemory_stringIn hs hlen

/-- For the name `A` the paths hold. -/
theorem commandPaths_hold_short :
    (∃ arrays k', processLoadStartArrays ⟨.fresh fun _ => 255, .fresh fun _ => 255⟩
      (Kernel.calling userPageFlags (namedMemory [65])) = some (some arrays, k') ∧
      (∀ i ∈ arrays.filename.written, i < maxPath) ∧ PathHolds arrays.path [65]) ∧
    ∃ path k', (commandArguments >>= invokeSystemCommandPath (.fresh fun _ => 255))
      (Kernel.calling userPageFlags (namedMemory [65])) = some (some path, k') ∧
      PathHolds path [65] := by
  have h := Kernel.calling_loadStartCall (s := [65]) (by simp) (by decide) (by decide +kernel)
  have h₇ := Kernel.calling_invokeCall (s := [65]) (by simp) (by decide) (by decide +kernel)
  have hfree := Kernel.calling_freeBlocks (namedMemory [65])
  obtain ⟨⟨r, k', hrun, hiff⟩, r₇, k₇, hrun₇, hiff₇⟩ :=
    commandPaths_hold_iff h h₇ (fun _ => 255) (fun _ => 255) fun _ => 255
  constructor
  · obtain ⟨hfull, -⟩ | ⟨-, _, hsome⟩ := h.run ⟨.fresh fun _ => 255, .fresh fun _ => 255⟩
    · omega
    · obtain ⟨rfl, rfl⟩ := Prod.mk.inj (Option.some.inj (hrun.symm.trans hsome))
      exact ⟨_, _, hrun, hiff.mpr (.inr (by decide)) _ rfl⟩
  · obtain ⟨h0 | hnil, -⟩ | ⟨-, -, _, hsome⟩ := h₇.run (.fresh fun _ => 255)
    · omega
    · exact absurd hnil (List.cons_ne_nil _ _)
    · obtain ⟨rfl, rfl⟩ := Prod.mk.inj (Option.some.inj (hrun₇.symm.trans hsome))
      exact ⟨_, _, hrun₇, hiff₇.mpr (.inr (by decide)) _ rfl⟩

/-- A name of 105 characters. -/
def longName : List UInt8 := List.replicate 105 65

/-- It has no NUL. -/
theorem longName_ne_zero : ∀ c ∈ longName, c ≠ 0 := by
  intro c hc
  rw [List.eq_of_mem_replicate hc]
  decide

/-- It runs out of `path`. -/
theorem longName_overflows (g : ℕ → UInt8) :
    108 ∈ ((LocalArray.fresh g).withName longName).written ∧
    ¬PathHolds ((LocalArray.fresh g).withName longName) longName := by
  constructor
  · exact (LocalArray.mem_strcpy_written _ _ _).mpr (.inl (by decide))
  · rw [withName_holds_iff longName_ne_zero]
    decide

/-- With it both handlers write behind the end of the path. -/
theorem commandPaths_overflow :
    (∃ arrays k', processLoadStartArrays ⟨.fresh fun _ => 255, .fresh fun _ => 255⟩
      (Kernel.calling userPageFlags (namedMemory longName)) = some (some arrays, k') ∧
      108 ∈ arrays.path.written ∧ ¬PathHolds arrays.path longName) ∧
    ∃ path k', (commandArguments >>= invokeSystemCommandPath (.fresh fun _ => 255))
      (Kernel.calling userPageFlags (namedMemory longName)) = some (some path, k') ∧
      108 ∈ path.written ∧ ¬PathHolds path longName := by
  have h := Kernel.calling_loadStartCall (s := longName) longName_ne_zero (by decide)
    (by decide +kernel)
  have h₇ := Kernel.calling_invokeCall (s := longName) longName_ne_zero (by decide)
    (by decide +kernel)
  have hfree := Kernel.calling_freeBlocks (namedMemory longName)
  constructor
  · obtain ⟨hfull, -⟩ | ⟨-, k', hrun⟩ := h.run ⟨.fresh fun _ => 255, .fresh fun _ => 255⟩
    · omega
    · exact ⟨⟨_, (LocalArray.fresh fun _ => 255).withName longName⟩, k', hrun,
        longName_overflows fun _ => 255⟩
  · obtain ⟨h0 | hnil, -⟩ | ⟨-, -, k', hrun⟩ := h₇.run (.fresh fun _ => 255)
    · omega
    · exact absurd hnil (List.cons_ne_nil _ _)
    · exact ⟨_, k', hrun, longName_overflows fun _ => 255⟩

/-! ## What follows -/

/-- The characters of a string that fits into `n` bytes but for its NUL. -/
structure FitsIn (n : ℕ) (s : List UInt8) : Prop where
  length : s.length ≤ n
  ne_zero : ∀ c ∈ s, c ≠ 0

theorem FitsIn.nil (n : ℕ) : FitsIn n [] := ⟨Nat.zero_le n, fun _ hc => absurd hc List.not_mem_nil⟩

/-- No more characters are copied than asked for, by recursion on the fuel. -/
theorem strncpyVirtual_fits : ∀ {fuel tmp virt : ℕ} {k : Kernel},
    Meets False (strncpyVirtual d fuel tmp virt) k fun l _ => FitsIn fuel l
  | 0, _, _, _ => Meets.pure_iff.mpr (.nil 0)
  | fuel + 1, tmp, virt, k => by
    refine .bind Meets.self fun c k₁ _ => Meets.ite_iff.mpr ⟨fun _ => ?_, fun hc => ?_⟩
    · exact Meets.pure_iff.mpr (.nil _)
    · refine .bind Meets.self fun _ _ _ => .bind strncpyVirtual_fits fun l _ hl => ?_
      refine Meets.pure_iff.mpr ⟨Nat.succ_le_succ hl.length, fun x hx => ?_⟩
      rcases List.mem_cons.mp hx with rfl | hx
      · exact hc
      · exact hl.ne_zero x hx

/-- Nor through the borrowed page. -/
theorem copyToPage_fits {chunk tmp n : ℕ} :
    Meets False (copyToPage chunk virt tmp n) k fun r _ => FitsIn n r.2 := by
  refine .bind Meets.self fun _ _ _ => .bind Meets.self fun _ _ _ => ?_
  refine .bind Meets.self fun _ _ _ => .bind Meets.self fun _ _ _ => ?_
  refine .bind strncpyVirtual_fits fun copied _ hfits => ?_
  refine .bind Meets.self fun _ _ _ => .bind Meets.self fun _ _ _ => ?_
  exact .bind Meets.self fun _ _ _ => Meets.pure_iff.mpr hfits

/-- The string and its NUL fit the buffer of the caller. -/
theorem copyStringFromTask_fits {task : ℕ} {max : Int} :
    Meets False (copyStringFromTask task virt max) k fun r _ => FitsIn (max - 1).toNat r.2 := by
  rw [copyStringFromTask_eq]
  refine Meets.ite_iff.mpr ⟨fun _ => Meets.pure_iff.mpr (.nil _), fun _ => ?_⟩
  refine .bind Meets.self fun tmp _ _ => ?_
  refine Meets.ite_iff.mpr ⟨fun _ => Meets.pure_iff.mpr (.nil _), fun _ => ?_⟩
  refine .bind Meets.self fun t _ _ => .bind copyToPage_fits fun r _ hfits => ?_
  refine Meets.ite_iff.mpr ⟨fun _ => ?_, fun _ => ?_⟩
  · exact .bind Meets.self fun _ _ _ => Meets.pure_iff.mpr (.nil _)
  · exact .bind Meets.self fun _ _ _ => Meets.pure_iff.mpr hfits

/-- The handlers of the model stop where the path overflows. -/
theorem withName_overflows_iff (g : ℕ → UInt8) :
    (∃ i ∈ ((LocalArray.fresh g).withName s).written, maxPath ≤ i) ↔ maxPath < s.length + 4 := by
  have hiff := withName_inside_iff (s := s) g
  constructor
  · rintro ⟨i, hi, hle⟩
    by_contra hno
    exact absurd (hiff.mpr (by unfold maxPath at hno; omega) i hi) (not_lt.mpr hle)
  · intro h
    by_contra hno
    push Not at hno
    have hshort := hiff.mp hno
    have hlong : 108 < s.length + 4 := h
    omega

/-- A path that is only written inside is read as it was put together. -/
theorem stringAt_withName (hs : FitsIn (maxPath - 1) s) (hfit : ¬maxPath < s.length + 4)
    (path : LocalArray) : stringAt (path.withName s).byte maxPath 0 = drivePrefix ++ s := by
  rw [stringAt_eq_take (withName_stringIn hs.ne_zero path), List.take_of_length_le hs.length]
  refine List.take_of_length_le ?_
  rw [List.length_append]
  have hprefix : drivePrefix.length = 3 := rfl
  omega

/-- Going on with the path in the array is going on with the string, if the array holds it. -/
theorem withName_goesOn {α : Type} (hs : FitsIn (maxPath - 1) s) (g : ℕ → UInt8)
    (m : List UInt8 → KernelM α) :
    (do
      if maxPath < s.length + 4 then fault
      m (drivePrefix ++ s)) k =
    (do
      if ∃ i ∈ ((LocalArray.fresh g).withName s).written, maxPath ≤ i then fault
      m (stringAt ((LocalArray.fresh g).withName s).byte maxPath 0)) k := by
  have hover := withName_overflows_iff (s := s) g
  by_cases hfit : maxPath < s.length + 4
  · rw [if_pos hfit, if_pos (hover.mpr hfit)]
    exact (run_bind fault _ k).trans (run_bind fault _ k).symm
  · rw [if_neg hfit, if_neg fun h => hfit (hover.mp h), stringAt_withName hs hfit]

/-- `isr80h_command6_process_load_start` from `process_load_switch` on. -/
def processLoadStartPath (path : List UInt8) : KernelM CommandEnd := do
  let (res, process) ← processLoadSwitch path
  if res < 0 then return .returned 0
  processEnter process

/-- The arrays for a string that `copy_string_from_task` has copied. -/
theorem processLoadStartArrays_eq {name : List UInt8} (hname : FitsIn (maxPath - 1) name)
    (arrays : LoadStartArrays) :
    (let filename := arrays.filename.strncpy 0 name maxPath
     let path := arrays.path.strcpy 0 drivePrefix
     (⟨filename, path.strcpy 3 (stringAt filename.byte maxPath 0)⟩ : LoadStartArrays)) =
      ⟨arrays.filename.strcpy 0 name, arrays.path.withName name⟩ := by
  have hfile : arrays.filename.strncpy 0 name maxPath = arrays.filename.strcpy 0 name := by
    rw [LocalArray.strncpy_eq]
    exact congrArg _ (List.take_of_length_le hname.length)
  have hback : stringAt (arrays.filename.strcpy 0 name).byte maxPath 0 = name := by
    rw [stringAt_eq_take (LocalArray.strcpy_stringIn hname.ne_zero 0 _)]
    exact List.take_of_length_le (hname.length.trans (Nat.sub_le _ _))
  simp only [hfile, hback, LocalArray.withName, List.take_of_length_le hname.length]

/-- `isr80h_command6_process_load_start` goes on with its path, if the path was only written
inside. -/
theorem isr80hCommand6ProcessLoadStart_eq (g₁ g₂ : ℕ → UInt8) :
    isr80hCommand6ProcessLoadStart k = (do
      match ← processLoadStartArrays ⟨.fresh g₁, .fresh g₂⟩ with
      | none => return .returned 0
      | some arrays =>
        if ∃ i ∈ arrays.path.written, maxPath ≤ i then fault
        processLoadStartPath (stringAt arrays.path.byte maxPath 0) : KernelM CommandEnd) k := by
  simp only [isr80hCommand6ProcessLoadStart, processLoadStartArrays, run_bind, run_get,
    Option.bind_some]
  cases hitem : taskGetStackItem k.currentTask 0 k with
  | none => rfl
  | some x =>
    obtain ⟨virt, k₁⟩ := x
    simp only [Option.bind_some]
    cases hcopy : copyStringFromTask k.currentTask virt maxPath k₁ with
    | none => rfl
    | some y =>
      obtain ⟨⟨res, name⟩, k₂⟩ := y
      have hfits : FitsIn (maxPath - 1) name := copyStringFromTask_fits.of_eq hcopy
      simp only [Option.bind_some]
      by_cases hres : res < 0
      · rw [if_pos hres, if_pos hres]
        rfl
      · have harrays := processLoadStartArrays_eq hfits ⟨.fresh g₁, .fresh g₂⟩
        simp only at harrays
        rw [if_neg hres, if_neg hres, run_pure, Option.bind_some, harrays]
        exact withName_goesOn hfits g₂ processLoadStartPath

/-- `isr80h_command7_invoke_system_command` from `process_load_switch` on. -/
def invokeSystemCommandWith (fuel arguments : ℕ) (path : List UInt8) : KernelM CommandEnd := do
  let (res, process) ← processLoadSwitch path
  if res < 0 then return .returned (errorPtr res)
  let res ← processInjectArguments fuel process arguments
  if res < 0 then return .returned (errorPtr res)
  processEnter process

/-- `isr80h_command7_invoke_system_command` goes on with its path, if it was only written
inside. -/
theorem invokeSystemCommand_eq (fuel arguments : ℕ) (g : ℕ → UInt8) :
    invokeSystemCommand fuel arguments k = (do
      match ← invokeSystemCommandPath (.fresh g) arguments with
      | none => return .returned (errorPtr (-EINVARG))
      | some path =>
        if ∃ i ∈ path.written, maxPath ≤ i then fault
        invokeSystemCommandWith fuel arguments (stringAt path.byte maxPath 0) :
          KernelM CommandEnd) k := by
  simp only [invokeSystemCommand, invokeSystemCommandPath, run_bind, run_get, Option.bind_some]
  by_cases hno : arguments = 0 ∨ k.mem arguments = 0
  · rw [if_pos hno, if_pos hno]
    rfl
  · have hfits : FitsIn (maxPath - 1) (stringAt k.mem (maxPath - 1) arguments) :=
      ⟨length_stringAt_le _ _ _, fun _ => ne_zero_of_mem_stringAt⟩
    rw [if_neg hno, if_neg hno, run_pure, Option.bind_some, LocalArray.strncpy_eq]
    exact withName_goesOn hfits g (invokeSystemCommandWith fuel arguments)

end Hyperion
