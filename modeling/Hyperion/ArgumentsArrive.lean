import Hyperion.ArgumentInjection
import Hyperion.Fat16Spec
import Mathlib.Data.List.Forall2

/-!
# Arguments arrive

What `process_inject_arguments` leaves behind when it succeeds, for any process and whatever
the process has allocated before : an array of pointers to copies of the arguments, each in an
allocation of its own (`HasArguments`). The induction over the list carries that the copies and
the array are in blocks that are taken (`ArgumentsCopied`), which the later requests are not
answered with (`ArgumentsCopied.not_mem`).

`Granted` follows the process through the loop : it has the records `al`, and of the bytes outside
the free blocks only those of the blocks it was given have changed (`Grants`). A request that is
refused leaves the process with the records it had (`Granted.malloc_granted`), so that after a
negative result its arguments are those from before.

The arguments are read while the copies are made. A node in a block that is not free keeps its
bytes (`Settled.kept`), and with all nodes there the arguments arrive
(`processInjectArguments_arrive`). A node in a free block can be read all the same, as nothing
unmaps it, but the block may be the one that the kernel clears and writes the copy to : then the
result is 0 and the argument is empty (`processInjectArguments_not_always_arrive`).
-/

namespace Hyperion

open CString Partial FreeRun

variable {k k' k₁ : Kernel} {a b c i j n process size v : ℕ} {p : Process} {t : Task} {d : ℕ}
  {f e : ℕ → ℕ} {al : ℕ → ProcessAllocation} {bs nodes : List ℕ}

/-! ## Bytes outside the free blocks -/

namespace Kernel

/-- The byte at `a` is in no free block : what is stored there can be read. -/
def Settled (k : Kernel) (a : ℕ) : Prop :=
  ∀ b < heapTotalBlocks, k.table.IsFree b → a < blockAddr b ∨ blockAddr b + 4096 ≤ a

theorem settled_blockAddr (hf : ¬k.table.IsFree b) (hj : j < 4096) :
    k.Settled (blockAddr b + j) := by
  intro c _ hc
  have hne : b ≠ c := fun he => hf (he ▸ hc)
  unfold blockAddr
  omega

theorem Taken.settled (h : k.Taken a) : k.Settled a := by
  obtain ⟨b, -, hfree, hlo, hhi⟩ := h
  rw [← Nat.add_sub_cancel' hlo]
  exact settled_blockAddr hfree (by omega)

/-- What is free later was free. -/
theorem Settled.kept (h : k.Settled a) (hk : Keeps k.table k'.table) : k'.Settled a := by
  intro b hb hfree
  by_contra hin
  refine hk.not_isFree hb (fun hf => ?_) hfree
  exact hin (h b hb hf)

/-- The bytes of another block. -/
theorem withBytes_mem_of_ne (k : Kernel) {bs : List UInt8} (hne : c ≠ b)
    (hlen : i + bs.length ≤ 4096) (hj : j < 4096) :
    (k.withBytes (blockAddr b + i) bs).mem (blockAddr c + j) = k.mem (blockAddr c + j) := by
  rw [withBytes_mem, if_neg]
  unfold blockAddr
  omega

/-- Bytes stored in a free block. -/
theorem Settled.withBytes_mem (h : k.Settled a) {bs : List UInt8} (hb : b < heapTotalBlocks)
    (hf : k.table.IsFree b) (hlen : i + bs.length ≤ 4096) (k' : Kernel) :
    (k'.withBytes (blockAddr b + i) bs).mem a = k'.mem a := by
  have hout := h b hb hf
  rw [Kernel.withBytes_mem, if_neg (by omega)]

/-- `k'` is a state after `k` in which block `b`, which was free, is taken. Of the bytes
outside the free blocks none has changed. -/
structure Grants (k : Kernel) (b : ℕ) (k' : Kernel) : Prop where
  lt : b < heapTotalBlocks
  free : k.table.IsFree b
  taken : ¬k'.table.IsFree b
  keeps : Keeps k.table k'.table
  byte : ∀ a, k.Settled a → k'.mem a = k.mem a

/-- An answer that is inside the heap. -/
theorem Serves.grants (h : k.Serves size b) (hpos : 1 ≤ size)
    (hin : b + requestBlocks size ≤ heapTotalBlocks)
    (ht : k'.heapTable = (k.allocated b size).heapTable)
    (hm : k'.mem = (k.allocated b size).mem) : k.Grants b k' where
  lt := h.lt
  free := h.free
  taken hf := by
    have hfit := h.fits
    have hn : 0 < requestBlocks size :=
      requestBlocks_pos hpos (by unfold blockAddr heapAddress at hfit; omega)
    have hf' : (k.allocated b size).table.IsFree b := (congrFun ht _).symm.trans hf
    exact (allocated_isFree.mp hf').2 ⟨le_rfl, by omega⟩
  keeps := ((Keeps.refl _).allocated h.toAnswers).of_heapTable ht
  byte a ha := by
    rw [hm]
    refine if_neg ?_
    rintro ⟨hlo, hhi⟩
    have hfit := h.fits
    have hle : size ≤ requestBlocks size * 4096 :=
      le_requestBlocks (by unfold blockAddr heapAddress at hfit; omega)
    -- the block that the byte would be in
    have hdiv := Nat.div_add_mod (a - blockAddr b) 4096
    have hmod := Nat.mod_lt (a - blockAddr b) (show 0 < 4096 by decide)
    have hlt : (a - blockAddr b) / 4096 < requestBlocks size := by omega
    have hblock := ha (b + (a - blockAddr b) / 4096) (by omega)
      (h.run _ (by omega) (by omega) (by omega))
    unfold blockAddr at *
    omega

/-- The answer to a request that there is room for is inside the heap. -/
theorem Serves.inside_of_hasRun (h : k.Serves size b) (hsize : size ≤ 104857600) (hpos : 1 ≤ size)
    (hroom : HasRun k.table.IsFree heapTotalBlocks (blocksFor size)) :
    b + requestBlocks size ≤ heapTotalBlocks := by
  have hstart := h.start
  have hn : 0 < requestBlocks size := requestBlocks_pos hpos (by omega)
  rw [show blocksFor size = requestBlocks size from (requestBlocks_eq hsize).symm] at hroom
  rcases heapGetStartBlock_cases k.heap (requestBlocks size) with ⟨s, hs, -, hrun⟩ |
    ⟨s, hs, hno, -⟩ | ⟨hs, -, -⟩
  · obtain rfl : s = b := by omega
    exact hrun.inside
  · exact absurd hroom (hno hn)
  · unfold ENOMEM at hs
    omega

end Kernel

theorem ArgumentList.settled (h : ArgumentList k a nodes) :
    ∀ node ∈ nodes, ∀ j < 516, k.Settled (node + j) := by
  induction h with
  | nil => exact fun _ hnode => absurd hnode List.not_mem_nil
  | cons _ hin _ ih =>
    intro node hnode
    rcases List.mem_cons.mp hnode with rfl | hnode
    · exact fun j hj => (hin j hj).settled
    · exact ih node hnode

/-! ## Requests -/

/-- An allocation of `size` bytes at `ptr` is recorded in `al`. -/
def HasRecord (al : ℕ → ProcessAllocation) (ptr size : ℕ) : Prop :=
  ∃ j < maxProgramAllocations, al j = ⟨ptr, size⟩

/-- A record that is put where none is leaves the others. -/
theorem HasRecord.put (h : HasRecord al (blockAddr b) n) (hi : (al i).ptr = 0)
    (r : ProcessAllocation) : HasRecord (fun j => if j = i then r else al j) (blockAddr b) n := by
  obtain ⟨j, hj, he⟩ := h
  refine ⟨j, hj, ?_⟩
  show (if j = i then r else al j) = _
  rw [if_neg, he]
  rintro rfl
  rw [he] at hi
  exact blockAddr_pos b hi

/-- There are not more blocks with records than records. -/
theorem length_le_of_records (hnodup : bs.Nodup)
    (h : ∀ b ∈ bs, ∃ n, HasRecord al (blockAddr b) n) : bs.length ≤ maxProgramAllocations := by
  have hsub : (bs.map blockAddr).toFinset ⊆
      (Finset.range maxProgramAllocations).image fun j => (al j).ptr := by
    intro q hq
    obtain ⟨b, hb, rfl⟩ := List.mem_map.mp (List.mem_toFinset.mp hq)
    obtain ⟨n, j, hj, he⟩ := h b hb
    exact Finset.mem_image.mpr ⟨j, Finset.mem_range.mpr hj, by rw [he]⟩
  have hmap : (bs.map blockAddr).Nodup := hnodup.map fun _ _ => blockAddr_inj.mp
  calc bs.length = (bs.map blockAddr).toFinset.card := by
        rw [List.toFinset_card_of_nodup hmap, List.length_map]
    _ ≤ _ := Finset.card_le_card hsub
    _ ≤ _ := Finset.card_image_le
    _ = maxProgramAllocations := Finset.card_range _

/-- `k` is a state after `k₁` in which the process at `process`, which was `p`, has the records
`al`. -/
structure Granted (k₁ : Kernel) (process : ℕ) (p : Process) (t : Task) (d : ℕ) (f : ℕ → ℕ)
    (al : ℕ → ProcessAllocation) (k : Kernel) : Prop where
  keeps : Keeps k₁.table k.table
  at_process : ∃ e, ProcessAt k process (p.withRecords al) t d f e
  pointers : ∀ a, ProcessPointer process p t d f a → ¬k₁.Fresh a

namespace Granted

theorem withBytes (h : Granted k₁ process p t d f al k) (a : ℕ) (bs : List UInt8) :
    Granted k₁ process p t d f al (k.withBytes a bs) where
  keeps := h.keeps
  at_process := by
    obtain ⟨e, hat⟩ := h.at_process
    exact ⟨e, hat.congr fun _ _ => rfl⟩
  pointers := h.pointers

/-- A request of the process. -/
theorem malloc (h : Granted k₁ process p t d f al k) :
    Meets False (processMalloc process size) k fun res k' =>
      (res = 0 ∧ Granted k₁ process p t d f al k') ∨
      ∃ b i, k.Serves size b ∧ res = blockAddr b ∧ i < maxProgramAllocations ∧ (al i).ptr = 0 ∧
        k'.heapTable = (k.allocated b size).heapTable ∧ k'.mem = (k.allocated b size).mem ∧
        Granted k₁ process p t d f (fun j => if j = i then ⟨blockAddr b, size⟩ else al j) k' := by
  obtain ⟨e, hat⟩ := h.at_process
  have hnf : ∀ a, ProcessPointer process (p.withRecords al) t d f a → ¬k.Fresh a := fun a ha hf =>
    h.pointers a (ProcessPointer.withRecords.mp ha) (h.keeps.fresh hf)
  refine (processMalloc_rule hat hnf False.elim).mono ?_
  rintro res k' (⟨rfl, rfl, -⟩ | ⟨b, hb, ⟨-, rfl, rfl⟩ | ⟨i, k₂, rfl, hi, ht, hat₂, rfl⟩⟩)
  · exact .inl ⟨rfl, h⟩
  · refine .inl ⟨rfl, ?_, ⟨e, ?_⟩, h.pointers⟩
    · rw [Kernel.release_table, Kernel.heapAddressToBlock_blockAddr _ hb.lt]
      exact (h.keeps.allocated hb.toAnswers).free fun _ =>
        (h.keeps.fresh hb.fresh).elim fun c hc => blockAddr_inj.mp hc.2.1 ▸ hc.2.2
    · exact (hat.allocated hb.fresh hnf).release fun ha => hnf _ ha hb.fresh
  · exact .inr ⟨b, i, hb, rfl, hi.lt, hi.empty, ht.heapTable, ht.mem,
      (h.keeps.allocated hb.toAnswers).of_heapTable ht.heapTable, ⟨_, hat₂.put rfl⟩, h.pointers⟩

/-- Served or not, the process has its records. -/
theorem malloc_granted (h : Granted k₁ process p t d f al k) :
    Meets False (processMalloc process size) k fun _ k' =>
      ∃ al', Granted k₁ process p t d f al' k' := by
  refine h.malloc.mono ?_
  rintro res k' (⟨-, h'⟩ | ⟨b, i, -, -, -, -, -, -, h'⟩)
  · exact ⟨al, h'⟩
  · exact ⟨_, h'⟩

end Granted

/-! ## The copies -/

theorem ne_zero_of_mem_stringAt {m : ℕ → UInt8} {x : UInt8} : ∀ {n a : ℕ},
    x ∈ stringAt m n a → x ≠ 0
  | 0, _, h => absurd h List.not_mem_nil
  | n + 1, a, h => by
    rw [stringAt] at h
    split_ifs at h with h0
    · exact absurd h List.not_mem_nil
    · rcases List.mem_cons.mp h with rfl | h
      · exact h0
      · exact ne_zero_of_mem_stringAt h

theorem stringAt_congr {m m' : ℕ → UInt8} : ∀ {n a : ℕ}, (∀ j < n, m' (a + j) = m (a + j)) →
    stringAt m' n a = stringAt m n a
  | 0, _, _ => rfl
  | n + 1, a, h => by
    have h0 : m' a = m a := h 0 (Nat.succ_pos n)
    have hrest : stringAt m' n (a + 1) = stringAt m n (a + 1) := stringAt_congr fun j hj => by
      rw [Nat.add_assoc, Nat.add_comm 1 j]
      exact h (j + 1) (Nat.succ_lt_succ hj)
    rw [stringAt, stringAt, h0, hrest]

theorem word32_congr {m m' : ℕ → UInt8} (h : ∀ j < 4, m' (a + j) = m (a + j)) :
    word32 m' a = word32 m a := by
  have h0 : m' a = m a := h 0 (by decide)
  simp only [word32]
  rw [h0, h 1 (by decide), h 2 (by decide), h 3 (by decide)]

/-- A string that an argument has room for is at the start of block `b`. -/
structure TextIn (m : ℕ → UInt8) (b : ℕ) (s : List UInt8) : Prop where
  short : s.length ≤ 511
  string : StringIn m (blockAddr b) s

/-- The bytes of the blocks decide. -/
theorem TextIn.congr_all {m m' : ℕ → UInt8} {ss : List (List UInt8)}
    (h : List.Forall₂ (TextIn m) bs ss)
    (hm : ∀ b ∈ bs, ∀ j < 4096, m' (blockAddr b + j) = m (blockAddr b + j)) :
    List.Forall₂ (TextIn m') bs ss :=
  ((List.forall₂_and_left bs ss).mpr ⟨hm, h⟩).imp fun _ s ⟨hb, hs⟩ =>
    ⟨hs.short, hs.string.congr fun i hi => hb i (by have := hs.short; omega)⟩

/-- The strings `ss` are in the blocks `bs`, to which the words of block `v` lead. The blocks
were free in `k₁`, and are recorded in `al`. -/
structure ArgumentsCopied (k₁ : Kernel) (al : ℕ → ProcessAllocation) (size v : ℕ) (bs : List ℕ)
    (ss : List (List UInt8)) (k : Kernel) : Prop where
  nodup : (v :: bs).Nodup
  block : ∀ b ∈ v :: bs, b < heapTotalBlocks ∧ k₁.table.IsFree b ∧ ¬k.table.IsFree b
  array : HasRecord al (blockAddr v) size
  recorded : ∀ b ∈ bs, HasRecord al (blockAddr b) 512
  word : ∀ i (hi : i < bs.length), word32 k.mem (blockAddr v + 4 * i) = blockAddr bs[i]
  text : List.Forall₂ (TextIn k.mem) bs ss
  kept : ∀ a, k₁.Settled a → k.mem a = k₁.mem a

namespace ArgumentsCopied

variable {ss : List (List UInt8)} {s : List UInt8}

theorem records (h : ArgumentsCopied k₁ al size v bs ss k) :
    ∀ b ∈ v :: bs, ∃ n, HasRecord al (blockAddr b) n := by
  intro b hb
  rcases List.mem_cons.mp hb with rfl | hb
  · exact ⟨_, h.array⟩
  · exact ⟨_, h.recorded b hb⟩

/-- There is a word in the array for each copy. -/
theorem length_lt (h : ArgumentsCopied k₁ al size v bs ss k) : bs.length < maxProgramAllocations :=
  length_le_of_records h.nodup h.records

/-- A block that is granted is not one of them. -/
theorem not_mem (h : ArgumentsCopied k₁ al size v bs ss k) (hb : k.Grants b k') : b ∉ v :: bs :=
  fun hmem => (h.block b hmem).2.2 hb.free

/-- The blocks are not granted again. -/
theorem granted (h : ArgumentsCopied k₁ al size v bs ss k) (hk : Keeps k₁.table k.table)
    (hb : k.Grants b k') (hi : (al i).ptr = 0) (r : ProcessAllocation) :
    ArgumentsCopied k₁ (fun j => if j = i then r else al j) size v bs ss k' := by
  have hbyte : ∀ c ∈ v :: bs, ∀ j < 4096, k'.mem (blockAddr c + j) = k.mem (blockAddr c + j) :=
    fun c hc j hj => hb.byte _ (Kernel.settled_blockAddr (h.block c hc).2.2 hj)
  refine ⟨h.nodup, fun c hc => ?_, h.array.put hi r, fun c hc => (h.recorded c hc).put hi r,
    fun j hj => ?_, TextIn.congr_all h.text fun c hc => hbyte c (List.mem_cons_of_mem v hc),
    fun a ha => ?_⟩
  · obtain ⟨hlt, hfree, htaken⟩ := h.block c hc
    exact ⟨hlt, hfree, hb.keeps.not_isFree hlt htaken⟩
  · rw [← h.word j hj]
    have hlen := h.length_lt
    unfold maxProgramAllocations at hlen
    refine word32_congr fun l hl => ?_
    rw [Nat.add_assoc]
    exact hbyte v List.mem_cons_self _ (by omega)
  · rw [hb.byte a (ha.kept hk), h.kept a ha]

theorem nodup_snoc (h : ArgumentsCopied k₁ al size v bs ss k) (hno : b ∉ v :: bs) :
    (v :: (bs ++ [b])).Nodup := by
  rw [← List.cons_append]
  exact h.nodup.append (List.nodup_singleton b) (List.disjoint_singleton.mpr hno)

theorem recorded_snoc (h : ArgumentsCopied k₁ al size v bs ss k)
    (hr : HasRecord al (blockAddr b) 512) : ∀ c ∈ bs ++ [b], HasRecord al (blockAddr c) 512 := by
  intro c hc
  rcases List.mem_append.mp hc with hc | hc
  · exact h.recorded c hc
  · exact List.mem_singleton.mp hc ▸ hr

/-- The page of the array has room for the word of one more block. -/
theorem word_fits (h : ArgumentsCopied k₁ al size v bs ss k) (hno : b ∉ v :: bs)
    (hr : HasRecord al (blockAddr b) 512) : 4 * bs.length + 4 ≤ 4096 := by
  have hall : ∀ c ∈ v :: (bs ++ [b]), ∃ n, HasRecord al (blockAddr c) n := by
    intro c hc
    rcases List.mem_cons.mp hc with rfl | hc
    · exact ⟨_, h.array⟩
    · exact ⟨_, h.recorded_snoc hr c hc⟩
  have hle := length_le_of_records (h.nodup_snoc hno) hall
  rw [List.length_cons, List.length_append, List.length_singleton] at hle
  unfold maxProgramAllocations at hle
  omega

/-- One more string is copied, to block `b`, and its pointer is stored. -/
theorem copy (h : ArgumentsCopied k₁ al size v bs ss k) (hb : b < heapTotalBlocks)
    (hf : k₁.table.IsFree b) (ht : ¬k.table.IsFree b) (hno : b ∉ v :: bs)
    (hr : HasRecord al (blockAddr b) 512) (hs : ∀ c ∈ s, c ≠ 0) (hlen : s.length ≤ 511) :
    ArgumentsCopied k₁ al size v (bs ++ [b]) (ss ++ [s])
      ((k.withBytes (blockAddr b) (s ++ [0])).withBytes (blockAddr v + 4 * bs.length)
        (wordBytes (blockAddr b))) := by
  have hvb : v ≠ b := fun he => hno (he ▸ List.mem_cons_self)
  obtain ⟨hvlt, hvfree, -⟩ := h.block v List.mem_cons_self
  have hword : (wordBytes (blockAddr b)).length = 4 := rfl
  have hfit : 4 * bs.length + (wordBytes (blockAddr b)).length ≤ 4096 := h.word_fits hno hr
  have hstr : 0 + (s ++ [0]).length ≤ 4096 := by
    rw [List.length_append, List.length_singleton]
    omega
  have hfirst : ∀ c ≠ b, ∀ j < 4096, (k.withBytes (blockAddr b) (s ++ [0])).mem (blockAddr c + j) =
      k.mem (blockAddr c + j) :=
    fun c hc j hj => k.withBytes_mem_of_ne (i := 0) hc hstr hj
  generalize hk₂ : k.withBytes (blockAddr b) (s ++ [0]) = k₂ at hfirst ⊢
  have hsecond : ∀ c ≠ v, ∀ j < 4096, (k₂.withBytes (blockAddr v + 4 * bs.length)
      (wordBytes (blockAddr b))).mem (blockAddr c + j) = k₂.mem (blockAddr c + j) :=
    fun c hc j hj => k₂.withBytes_mem_of_ne hc hfit hj
  refine ⟨h.nodup_snoc hno, fun c hc => ?_, h.array, h.recorded_snoc hr, fun j hj => ?_, ?_,
    fun a ha => ?_⟩
  · subst hk₂
    rw [← List.cons_append] at hc
    rcases List.mem_append.mp hc with hc | hc
    · exact h.block c hc
    · obtain rfl := List.mem_singleton.mp hc
      exact ⟨hb, hf, ht⟩
  · rw [hword] at hfit
    rw [List.length_append, List.length_singleton] at hj
    rcases Nat.lt_succ_iff_lt_or_eq.mp hj with hlt | rfl
    · rw [List.getElem_append_left hlt, ← h.word j hlt]
      refine word32_congr fun l hl => ?_
      rw [Kernel.withBytes_mem, if_neg (by omega), Nat.add_assoc, hfirst v hvb _ (by omega)]
    · rw [List.getElem_concat_length rfl]
      refine word32_wordBytes (fun l hl => ?_) (by have := blockAddr_lt hb; omega)
      rw [Kernel.withBytes_mem, if_pos ⟨Nat.le_add_right _ _, Nat.add_lt_add_left hl _⟩,
        Nat.add_sub_cancel_left]
  · refine List.rel_append (TextIn.congr_all h.text fun c hc j hj => ?_) (.cons ⟨hlen, ?_⟩ .nil)
    · have hcv : c ≠ v := fun he => (List.nodup_cons.mp h.nodup).1 (he ▸ hc)
      have hcb : c ≠ b := fun he => hno (he ▸ List.mem_cons_of_mem v hc)
      rw [hsecond c hcv j hj, hfirst c hcb j hj]
    · refine (hk₂ ▸ Kernel.withBytes_stringIn hs k (blockAddr b) : StringIn k₂.mem _ s).congr
        fun i hi => hsecond b hvb.symm i (by omega)
  · have hmem : k₂.mem a = k.mem a := hk₂ ▸ ha.withBytes_mem (i := 0) hb hf hstr k
    rw [ha.withBytes_mem hvlt hvfree hfit, hmem, h.kept a ha]

theorem text_eq (h : ArgumentsCopied k₁ al size v bs ss k) (ha : ∀ j < 516, k₁.Settled (a + j)) :
    stringAt k.mem 511 a = stringAt k₁.mem 511 a :=
  stringAt_congr fun j hj => h.kept _ (ha j (by omega))

theorem next_eq (h : ArgumentsCopied k₁ al size v bs ss k) (ha : ∀ j < 516, k₁.Settled (a + j)) :
    commandArgumentNext k.mem a = commandArgumentNext k₁.mem a :=
  word32_congr fun j hj => by
    rw [Nat.add_assoc]
    exact h.kept _ (ha (512 + j) (by omega))

/-- The address of the next word of the array. -/
theorem wordAddress_eq (h : ArgumentsCopied k₁ al size v bs ss k) :
    (blockAddr v + 4 * bs.length) % 4294967296 = blockAddr v + 4 * bs.length := by
  have := blockAddr_lt (h.block v List.mem_cons_self).1
  have hlen := h.length_lt
  unfold maxProgramAllocations at hlen
  omega

end ArgumentsCopied

/-! ## The loop -/

/-- Whatever the list, the loop changes nothing of the process but its records. -/
theorem processInjectArgumentsLoop_granted {argv : ℕ} : ∀ {fuel a i : ℕ}
    {al : ℕ → ProcessAllocation} {k : Kernel}, Granted k₁ process p t d f al k →
    Meets False (processInjectArgumentsLoop process argv fuel a i) k fun _ k' =>
      ∃ al', Granted k₁ process p t d f al' k'
  | 0, a, i, al, k, h => Meets.ite_iff.mpr
      ⟨fun _ => Meets.pure_iff.mpr ⟨al, h⟩, fun _ => Meets.fault_iff.mpr id⟩
  | fuel + 1, a, i, al, k, h => by
    refine Meets.ite_iff.mpr ⟨fun _ => Meets.pure_iff.mpr ⟨al, h⟩, fun _ => ?_⟩
    refine .bind h.malloc_granted fun res k₂ ⟨al₂, h₂⟩ => ?_
    refine Meets.ite_iff.mpr ⟨fun _ => Meets.pure_iff.mpr ⟨al₂, h₂⟩, fun _ => ?_⟩
    rw [Meets.bind_iff, Meets.get_iff, Meets.bind_iff, storeBytes_iff]
    refine ⟨fun _ => id, fun _ => ?_⟩
    rw [Meets.bind_iff, storeBytes_iff]
    refine ⟨fun _ => id, fun _ => ?_⟩
    rw [Meets.bind_iff, Meets.get_iff]
    exact processInjectArgumentsLoop_granted ((h₂.withBytes _ _).withBytes _ _)

/-- When the loop succeeds it has copied the rest of the list. -/
theorem processInjectArgumentsLoop_copied (hchain : ArgumentChain k₁.mem a nodes)
    (hset : ∀ node ∈ nodes, ∀ j < 516, k₁.Settled (node + j)) :
    ∀ {fuel : ℕ} {al : ℕ → ProcessAllocation} {bs : List ℕ} {ss : List (List UInt8)} {k : Kernel},
    Granted k₁ process p t d f al k → ArgumentsCopied k₁ al size v bs ss k →
    Meets False (processInjectArgumentsLoop process (blockAddr v) fuel a bs.length) k
      fun res k' => res = 0 → ∃ al' bs', Granted k₁ process p t d f al' k' ∧
        ArgumentsCopied k₁ al' size v bs' (ss ++ nodes.map (stringAt k₁.mem 511)) k' := by
  induction hchain with
  | nil =>
    intro fuel al bs ss k h hc
    have hdone : Meets False (return 0 : KernelM Int) k fun res k' => res = 0 →
        ∃ al' bs', Granted k₁ process p t d f al' k' ∧
          ArgumentsCopied k₁ al' size v bs' (ss ++ [].map (stringAt k₁.mem 511)) k' :=
      Meets.pure_iff.mpr fun _ => ⟨al, bs, h, (List.append_nil ss).symm ▸ hc⟩
    cases fuel with
    | zero => exact Meets.ite_iff.mpr ⟨fun _ => hdone, fun h => absurd rfl h⟩
    | succ fuel => exact Meets.ite_iff.mpr ⟨fun _ => hdone, fun h => absurd rfl h⟩
  | @cons a nodes h0 hrest ih =>
    intro fuel al bs ss k h hc
    have hnode := hset a List.mem_cons_self
    cases fuel with
    | zero => exact Meets.ite_iff.mpr ⟨fun h' => absurd h' h0, fun _ => Meets.fault_iff.mpr id⟩
    | succ fuel =>
      refine Meets.ite_iff.mpr ⟨fun h' => absurd h' h0, fun _ => ?_⟩
      refine .bind h.malloc ?_
      rintro res k₂ (⟨rfl, -⟩ | ⟨b, i, hb, rfl, hi, hempty, ht, hm, h₂⟩)
      · exact Meets.ite_iff.mpr ⟨fun _ => Meets.pure_iff.mpr fun h' => absurd h' (by decide),
          fun h' => absurd rfl h'⟩
      · refine Meets.ite_iff.mpr ⟨fun h' => absurd h' (blockAddr_pos b), fun _ => ?_⟩
        have hin : b + requestBlocks 512 ≤ heapTotalBlocks :=
          (show requestBlocks 512 = 1 by decide) ▸ hb.lt
        have hgrants := hb.grants (by decide) hin ht hm
        have hfree := (h.keeps.fresh hb.fresh).elim fun c hc => blockAddr_inj.mp hc.2.1 ▸ hc.2.2
        have hc₂ := hc.granted h.keeps hgrants hempty ⟨blockAddr b, 512⟩
        have hc₃ := hc₂.copy (s := stringAt k₁.mem 511 a) hb.lt hfree hgrants.taken
          (hc.not_mem hgrants) ⟨i, hi, if_pos rfl⟩ (fun _ => ne_zero_of_mem_stringAt)
          (length_stringAt_le _ _ _)
        rw [Meets.bind_iff, Meets.get_iff, Meets.bind_iff, storeBytes_iff]
        refine ⟨fun _ => id, fun _ => ?_⟩
        rw [Meets.bind_iff, storeBytes_iff]
        refine ⟨fun _ => id, fun _ => ?_⟩
        rw [Meets.bind_iff, Meets.get_iff, hc.wordAddress_eq, hc₂.text_eq hnode, hc₃.next_eq hnode,
          ← show (bs ++ [b]).length = bs.length + 1 from List.length_append]
        refine (ih (fun node hn => hset node (List.mem_cons_of_mem a hn))
          ((h₂.withBytes _ _).withBytes _ _) hc₃).mono fun res k' hres h' => ?_
        rw [List.map_cons, List.append_cons]
        exact hres h'

/-! ## The function -/

/-- With a negative result the process has its arguments from before. -/
theorem processInjectArguments_negative {fuel root : ℕ} (h : Granted k process p t d f al k) :
    Meets False (processInjectArguments fuel process root) k fun res k' => res < 0 →
      ∃ al', Granted k process p t d f al' k' := by
  rw [processInjectArguments, Meets.bind_iff, Meets.get_iff, Meets.bind_iff, defined_iff]
  refine ⟨fun argc _ => ?_, fun _ => id⟩
  refine Meets.ite_iff.mpr ⟨fun _ => Meets.pure_iff.mpr fun _ => ⟨al, h⟩, fun _ => ?_⟩
  refine .bind h.malloc_granted fun argv k₂ hgranted => ?_
  obtain ⟨al₂, h₂⟩ := hgranted
  refine Meets.ite_iff.mpr ⟨fun _ => Meets.pure_iff.mpr fun _ => ⟨al₂, h₂⟩, fun _ => ?_⟩
  refine .bind (processInjectArgumentsLoop_granted h₂) fun res k₃ h₃ => ?_
  refine Meets.ite_iff.mpr ⟨fun _ => Meets.pure_iff.mpr fun _ => h₃, fun hres => ?_⟩
  exact .bind Meets.self fun _ _ _ => Meets.pure_iff.mpr fun hneg => absurd hneg hres

/-- The arguments of the process `p` are the strings `ss`, at `ptrs`. The array and the strings
are in different allocations of it. -/
structure HasArguments (m : ℕ → UInt8) (p : Process) (ptrs : List ℕ) (ss : List (List UInt8)) :
    Prop where
  argc : p.arguments.argc = ss.length
  array : HasRecord p.allocations p.arguments.argv (4 * ss.length)
  nodup : (p.arguments.argv :: ptrs).Nodup
  recorded : ∀ ptr ∈ ptrs, HasRecord p.allocations ptr 512
  word : ∀ i (hi : i < ptrs.length), word32 m (p.arguments.argv + 4 * i) = ptrs[i]
  text : List.Forall₂ (StringIn m) ptrs ss

theorem ArgumentsCopied.hasArguments {ss : List (List UInt8)} {q : Process}
    (h : ArgumentsCopied k₁ al (4 * n) v bs ss k) (hn : ss.length = n) (hal : q.allocations = al)
    (hq : q.arguments = ⟨wrapInt n, blockAddr v⟩) : HasArguments k.mem q (bs.map blockAddr) ss := by
  have hargv : q.arguments.argv = blockAddr v := congrArg ProcessArguments.argv hq
  subst hal hn
  refine ⟨?_, hargv ▸ h.array, ?_, fun ptr hptr => ?_, fun i hi => ?_,
    List.forall₂_map_left_iff.mpr (h.text.imp fun _ _ hs => hs.string)⟩
  · have hlen := h.length_lt
    rw [h.text.length_eq] at hlen
    unfold maxProgramAllocations at hlen
    rw [hq]
    exact wrapInt_of_range (by omega) (by omega)
  · rw [hargv, ← List.map_cons]
    exact h.nodup.map fun _ _ => blockAddr_inj.mp
  · obtain ⟨b, hb, rfl⟩ := List.mem_map.mp hptr
    exact h.recorded b hb
  · rw [List.length_map] at hi
    rw [List.getElem_map, hargv]
    exact h.word i hi

/-- With room for the array, the result 0 means that the arguments are copied. -/
theorem processInjectArguments_copied {fuel root : ℕ} (h : Granted k process p t d f al k)
    (hchain : ArgumentChain k.mem root nodes) (hne : nodes ≠ [])
    (hset : ∀ node ∈ nodes, ∀ j < 516, k.Settled (node + j))
    (hroom : HasRun k.table.IsFree heapTotalBlocks (blocksFor (4 * nodes.length))) :
    Meets False (processInjectArguments fuel process root) k fun res k' => res = 0 →
      ∃ q ptrs, k'.store process = some (.process q) ∧
        HasArguments k'.mem q ptrs (nodes.map (stringAt k.mem 511)) := by
  have hpos : 0 < nodes.length := List.length_pos_iff.mpr hne
  have hsmall : 4 * nodes.length ≤ 104857600 := by
    obtain ⟨s, hs, -⟩ := hroom
    unfold blocksFor heapTotalBlocks at hs
    omega
  have hmod : 4 * nodes.length % 4294967296 = 4 * nodes.length := Nat.mod_eq_of_lt (by omega)
  rw [processInjectArguments, Meets.bind_iff, Meets.get_iff, Meets.bind_iff, defined_iff]
  refine ⟨fun argc hargc => ?_, fun _ => id⟩
  obtain rfl : argc = nodes.length := by
    rw [processCountCommandArguments, hchain.count] at hargc
    split_ifs at hargc
    rw [← Option.some.inj hargc, Nat.zero_add]
  refine Meets.ite_iff.mpr ⟨fun h0 => absurd h0 hpos.ne', fun _ => ?_⟩
  rw [hmod]
  refine .bind h.malloc ?_
  rintro argv k₂ (⟨rfl, -⟩ | ⟨v, i, hv, rfl, hi, hempty, ht, hm, h₂⟩)
  · exact Meets.ite_iff.mpr ⟨fun _ => Meets.pure_iff.mpr fun h' => absurd h' (by decide),
      fun h' => absurd rfl h'⟩
  · refine Meets.ite_iff.mpr ⟨fun h' => absurd h' (blockAddr_pos v), fun _ => ?_⟩
    have hgrants := hv.grants (by omega) (hv.inside_of_hasRun hsmall (by omega) hroom) ht hm
    have hc : ArgumentsCopied k (fun j => if j = i then ⟨blockAddr v, 4 * nodes.length⟩ else al j)
        (4 * nodes.length) v [] [] k₂ :=
      { nodup := List.nodup_singleton v
        block := fun b hb => by
          obtain rfl := List.mem_singleton.mp hb
          exact ⟨hv.lt, hv.free, hgrants.taken⟩
        array := ⟨i, hi, if_pos rfl⟩
        recorded := fun _ hb => absurd hb List.not_mem_nil
        word := fun _ hi => absurd hi (Nat.not_lt_zero _)
        text := .nil
        kept := hgrants.byte }
    refine .bind (processInjectArgumentsLoop_copied hchain hset h₂ hc) fun res k₃ h₃ => ?_
    refine Meets.ite_iff.mpr ⟨fun hneg => Meets.pure_iff.mpr fun h' => by omega, fun _ => ?_⟩
    by_cases hres : res = 0
    · obtain ⟨al', bs', hgr, hc₃⟩ := h₃ hres
      rw [List.nil_append] at hc₃
      obtain ⟨e, hat⟩ := hgr.at_process
      rw [Meets.bind_iff, Kernel.modifyProcess_meets hat.ne_zero hat.self, Meets.pure_iff]
      exact fun _ => ⟨_, bs'.map blockAddr, Kernel.put_store_self _ _ _,
        hc₃.hasArguments (List.length_map _) rfl rfl⟩
    · exact .bind Meets.self fun _ _ _ => Meets.pure_iff.mpr fun h' => absurd h' hres

/-- The arguments arrive : after the result 0 the process has them, and after a negative result
those from before. -/
theorem processInjectArguments_arrive {fuel root : ℕ} {res : Int}
    (h : ProcessAt k process p t d f e) (hp : ∀ a, ProcessPointer process p t d f a → ¬k.Fresh a)
    (hchain : ArgumentChain k.mem root nodes) (hne : nodes ≠ [])
    (hset : ∀ node ∈ nodes, ∀ j < 516, k.Settled (node + j))
    (hrun : processInjectArguments fuel process root k = some (res, k')) :
    (HasRun k.table.IsFree heapTotalBlocks (blocksFor (4 * nodes.length)) → res = 0 →
      ∃ q ptrs, k'.store process = some (.process q) ∧
        HasArguments k'.mem q ptrs (nodes.map (stringAt k.mem 511))) ∧
    (res < 0 → ∃ q, k'.store process = some (.process q) ∧ q.arguments = p.arguments) := by
  have hgranted : Granted k process p t d f p.allocations k := ⟨.refl _, ⟨e, h⟩, hp⟩
  refine ⟨fun hroom => ?_, fun hres => ?_⟩
  · exact (processInjectArguments_copied hgranted hchain hne hset hroom).of_eq hrun
  · obtain ⟨al, h'⟩ := (processInjectArguments_negative hgranted).of_eq hrun hres
    obtain ⟨e', hat⟩ := h'.at_process
    exact ⟨_, hat.self, rfl⟩

/-- A state with the structures of `Kernel.oneSpaceProcess`. -/
theorem Kernel.oneSpaceProcess_unallocated
    (hs : k.store = (Kernel.oneSpaceProcess Process.zero).store) :
    Unallocated k 0x900000 { Process.zero with task := 0x901000 }
      { Task.zero with pageDirectory := 4096, process := 0x900000 } 8192
      (fun i => 12288 + i * 4096) where
  at_process := ⟨_, (Kernel.oneSpaceProcess_at Process.zero).congr fun a _ => congrFun hs a⟩
  pointers _ ha := Kernel.oneSpaceProcess_not_fresh Process.zero ha k
  records _ _ := rfl

/-- A process, and two arguments in the first block of the heap. -/
def Kernel.holdingArguments : Kernel := { Kernel.oneSpaceProcess Process.zero with
  heapTable := fun b => if b = 0 then blockByte 1 0 else blockFree
  mem := fun a =>
    if a = blockAddr 0 then 104
    else if a = blockAddr 0 + 516 then 105
    else if 512 ≤ a - blockAddr 0 ∧ a < blockAddr 0 + 516 then
      (wordBytes (blockAddr 0 + 516)).getD (a - blockAddr 0 - 512) 0
    else 0 }

theorem Kernel.holdingArguments_list :
    ArgumentList Kernel.holdingArguments (blockAddr 0) [blockAddr 0, blockAddr 0 + 516] := by
  have htaken (j : ℕ) (hj : j < 4096) : Kernel.holdingArguments.Taken (blockAddr 0 + j) :=
    ⟨0, by decide, blockByte_ne_free 1 0, by omega, by omega⟩
  refine .cons (blockAddr_pos 0) (fun j hj => htaken j (by omega)) ?_
  rw [show commandArgumentNext Kernel.holdingArguments.mem (blockAddr 0) = blockAddr 0 + 516 by
    decide +kernel]
  refine .cons (by decide) (fun j hj => ?_) ?_
  · rw [Nat.add_assoc]
    exact htaken _ (by omega)
  · rw [show commandArgumentNext Kernel.holdingArguments.mem (blockAddr 0 + 516) = 0 by
      decide +kernel]
    exact .nil

theorem processInjectArguments_arrive_two : ∃ k' q ptrs,
    processInjectArguments 2 0x900000 (blockAddr 0) Kernel.holdingArguments = some (0, k') ∧
      k'.store 0x900000 = some (.process q) ∧ HasArguments k'.mem q ptrs [[104], [105]] := by
  have hunalloc := Kernel.oneSpaceProcess_unallocated (k := Kernel.holdingArguments) rfl
  obtain ⟨e, hat⟩ := hunalloc.at_process
  have hlist := Kernel.holdingArguments_list
  have hfree : ∀ b, 1 ≤ b → Kernel.holdingArguments.table.IsFree b := fun b hb =>
    if_neg (by omega)
  have hroom : Kernel.holdingArguments.HasRoomForArguments 2 :=
    ⟨by decide, Kernel.le_freeBlocks (fun b hb _ => hfree b hb) (by decide)⟩
  obtain ⟨res, k', hrun, -, ⟨rfl, -⟩ | ⟨-, hno⟩⟩ :=
    (processInjectArguments_meets hunalloc hlist (by simp) (show 2 ≤ 2 by decide)).exists_result
  · have harrive := processInjectArguments_arrive hat hunalloc.pointers hlist.chain (by simp)
      hlist.settled hrun
    obtain ⟨q, ptrs, hq, hargs⟩ := harrive.1 ⟨1, by decide, fun b hb _ => hfree b hb⟩ rfl
    rw [show [blockAddr 0, blockAddr 0 + 516].map (stringAt Kernel.holdingArguments.mem 511) =
      [[104], [105]] by decide +kernel] at hargs
    exact ⟨k', q, ptrs, hrun, hq, hargs⟩
  · exact absurd hroom hno

/-- A process, and an argument in the second block of the heap, which is free. -/
def Kernel.looseArgument : Kernel := { Kernel.oneSpaceProcess Process.zero with
  mem := fun a => if a = blockAddr 1 then 104 else 0 }

/-- The first character of the first argument of a process. -/
def firstArgumentChar (process : ℕ) : KernelM UInt8 := do
  let p ← getProcess process
  let k ← get
  return k.mem (word32 k.mem p.arguments.argv)

/-- An argument that can be read, but lies in a free block, is cleared before it is copied : the
block is the answer to the request for the copy. -/
theorem processInjectArguments_not_always_arrive : ∃ k',
    ArgumentChain Kernel.looseArgument.mem (blockAddr 1) [blockAddr 1] ∧
      stringAt Kernel.looseArgument.mem 511 (blockAddr 1) = [104] ∧
      HasRun Kernel.looseArgument.table.IsFree heapTotalBlocks (blocksFor (4 * 1)) ∧
      processInjectArguments 1 0x900000 (blockAddr 1) Kernel.looseArgument = some (0, k') ∧
      ¬∃ q ptrs, k'.store 0x900000 = some (.process q) ∧ HasArguments k'.mem q ptrs [[104]] := by
  have h : (processInjectArguments 1 0x900000 (blockAddr 1) Kernel.looseArgument).map (fun x =>
      (x.1, (firstArgumentChar 0x900000 x.2).map Prod.fst)) = some (0, some 0) := by
    decide +kernel
  obtain ⟨⟨res, k'⟩, hrun, hk'⟩ := Option.map_eq_some_iff.mp h
  obtain ⟨rfl, hempty⟩ := Prod.mk.inj hk'
  have hnext : commandArgumentNext Kernel.looseArgument.mem (blockAddr 1) = 0 := by decide +kernel
  refine ⟨k', .cons (blockAddr_pos 1) (hnext ▸ .nil), by decide +kernel,
    ⟨0, by decide, fun _ _ _ => rfl⟩, hrun, ?_⟩
  rintro ⟨q, ptrs, hq, hargs⟩
  have hfirst : Meets True (firstArgumentChar 0x900000) k' fun c _ =>
      c = k'.mem (word32 k'.mem q.arguments.argv) := by
    rw [firstArgumentChar, Meets.bind_iff, Kernel.getProcess_meets (by decide) hq, Meets.bind_iff,
      Meets.get_iff, Meets.pure_iff]
  obtain ⟨c, k'', hc, hchar⟩ := hfirst.exists_result
  have hzero : c = 0 := by
    rw [hc] at hempty
    exact Option.some.inj hempty
  obtain ⟨ptr, ptrs, htext, hnil, rfl⟩ := List.forall₂_cons_right_iff.mp hargs.text
  have hword : word32 k'.mem q.arguments.argv = ptr := hargs.word 0 (Nat.succ_pos _)
  rw [hzero, hword, htext.head] at hchar
  exact absurd hchar (by decide)

end Hyperion
