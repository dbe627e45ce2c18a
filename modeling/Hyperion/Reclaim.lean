import Hyperion.Translation

/-!
# Taking down an address space

`paging_free_4gb` frees the tables of a space in turn, then the directory and the chunk
(`Kernel.withoutSpace`). A space that `paging_new_4gb` built took one block for each of
these 1026 pointers and no others, because it takes at most 1026 blocks
(`pagingNew4gb_takes`) and the pointers are different. The calls in between change the
contents of the tables only.

`Kernel.TakesSingles` counts the free blocks that have been taken, each by itself, and composes over
a sequence (`Takes.bind`). When `n` different pointers lead to blocks that were free and are taken,
and at most `n` blocks were, these are all of them (`TakesSingles.eq_of_pointers`).
`Kernel.Clears` is the other direction : the blocks at the pointers become free, and since each was
an allocation of one block nothing else does (`Kernel.withoutSpace_clears`).

A run of `paging_set` and `paging_map_to` keeps the pointers of the space (`runSpaceCalls_meets`),
so that it is taken down from where it was built, and the table of the heap is what it was
(`addressSpace_reclaimed`).
-/

namespace Hyperion

open Partial

variable {k k' k₀ k₁ : Kernel} {α β : Type} {n m b c d : ℕ} {f e : ℕ → ℕ}

/-! ## The blocks that are taken -/

/-- `k'` is `k` with at most `n` free blocks taken, one at a time. -/
def Kernel.TakesSingles (n : ℕ) (k k' : Kernel) : Prop :=
  ∃ s : Finset ℕ, s.card ≤ n ∧ (∀ b ∈ s, k.table.IsFree b) ∧ ∀ j : Int,
    k'.heapTable j = if ∃ b ∈ s, j = (b : ℕ) then blockByte 1 0 else k.heapTable j

namespace Kernel.TakesSingles

/-- Where the table is the same nothing has been taken. -/
theorem of_heapTable (h : k'.heapTable = k.heapTable) : TakesSingles 0 k k' :=
  ⟨∅, le_rfl, by simp, fun j => by simp [h]⟩

/-- What is taken in two steps adds up. -/
theorem trans (h : TakesSingles n k k₁) (h' : TakesSingles m k₁ k') :
    TakesSingles (n + m) k k' := by
  obtain ⟨s, hs, hfree, hbyte⟩ := h
  obtain ⟨s', hs', hfree', hbyte'⟩ := h'
  refine ⟨s ∪ s', (Finset.card_union_le _ _).trans (by omega), fun b hb => ?_, fun j => ?_⟩
  · rcases Finset.mem_union.mp hb with hb | hb
    · exact hfree b hb
    · -- what was taken first is not free
      have hf : k₁.heapTable b = blockFree := hfree' b hb
      rw [hbyte] at hf
      split_ifs at hf with hin
      · exact absurd hf (blockByte_ne_free _ _)
      · exact hf
  · rw [hbyte', hbyte]
    by_cases h1 : ∃ b ∈ s, j = (b : ℕ)
    · obtain ⟨b, hb, rfl⟩ := h1
      have h2 : ∃ c ∈ s ∪ s', (b : Int) = (c : ℕ) := ⟨b, Finset.mem_union_left _ hb, rfl⟩
      have h3 : ∃ c ∈ s, (b : Int) = (c : ℕ) := ⟨b, hb, rfl⟩
      rw [if_pos h2, if_pos h3, ite_self]
    · have hiff : (∃ b ∈ s ∪ s', j = (b : ℕ)) ↔ ∃ b ∈ s', j = (b : ℕ) := by
        refine ⟨?_, fun ⟨b, hb, he⟩ => ⟨b, Finset.mem_union_right _ hb, he⟩⟩
        rintro ⟨b, hb, he⟩
        rcases Finset.mem_union.mp hb with hb | hb
        · exact absurd ⟨b, hb, he⟩ h1
        · exact ⟨b, hb, he⟩
      rw [if_neg h1, if_congr hiff rfl rfl]

/-- A single block is taken. -/
theorem allocated {size : ℕ} (hpos : 1 ≤ size) (hle : size ≤ 4096) (hf : k.table.IsFree b) :
    TakesSingles 1 k (k.allocated b size) := by
  refine ⟨{b}, le_rfl, by simpa using hf, fun j => ?_⟩
  have hentries : (k.allocated b size).heapTable j =
      (heapMarkBlocksTaken k.heap b (requestBlocks size)).table.entries j := rfl
  rw [hentries, heapMarkBlocksTaken_entries, requestBlocks_one hpos hle]
  by_cases hj : j = (b : ℕ)
  · rw [if_pos (by omega), if_pos ⟨b, Finset.mem_singleton_self b, hj⟩, hj, sub_self]
    rfl
  · rw [if_neg (by omega), if_neg (by simpa using hj)]
    rfl

/-- `n` different pointers at blocks that were free and are taken account for all of them. -/
theorem eq_of_pointers (h : TakesSingles n k k') {s : Finset ℕ} (hs : n ≤ s.card)
    (hfresh : ∀ b ∈ s, k.table.IsFree b) (htaken : ∀ b ∈ s, ¬k'.table.IsFree b) (j : Int) :
    k'.heapTable j = if ∃ b ∈ s, j = (b : ℕ) then blockByte 1 0 else k.heapTable j := by
  obtain ⟨s', hs', hfree', hbyte'⟩ := h
  have hsub : s ⊆ s' := by
    intro b hb
    by_contra hno
    refine htaken b hb ?_
    have hbyte : k'.heapTable b = k.heapTable b := by
      rw [hbyte', if_neg]
      rintro ⟨c, hc, he⟩
      obtain rfl : b = c := by omega
      exact hno hc
    exact hbyte.trans (hfresh b hb)
  rw [Finset.eq_of_subset_of_card_le hsub (by omega), hbyte']

end Kernel.TakesSingles

/-- Every run of `prog` takes at most `n` free blocks, one at a time. -/
def Takes (n : ℕ) (prog : KernelM α) : Prop :=
  ∀ k a k', prog k = some (a, k') → k.TakesSingles n k'

namespace Takes

variable {prog : KernelM α}

/-- A program that leaves the table takes nothing. -/
theorem of_unchanged (h : Unchanged Kernel.heapTable prog) : Takes 0 prog :=
  fun k a k' e => .of_heapTable (h k a k' e)

/-- A sequence takes what its parts take. -/
theorem bind {next : α → KernelM β} (h : Takes n prog) (hnext : ∀ a, Takes m (next a)) :
    Takes (n + m) (prog >>= next) := by
  intro k b k' e
  obtain ⟨a, k₁, hprog, hrun⟩ := bind_eq_some.mp e
  exact (h k a k₁ hprog).trans (hnext a k₁ b k' hrun)

end Takes

section New

variable {a size flags directory : ℕ} {o : Obj}

/-- An allocation of at most a page takes one block. -/
theorem kzalloc_takes (hpos : 1 ≤ size) (hle : size ≤ 4096) : Takes 1 (kzalloc size) := by
  intro k p k' e
  rcases Kernel.kzalloc_one k hpos hle with ⟨b, -, hf, -, he⟩ | ⟨he, -⟩
  · obtain ⟨rfl, rfl⟩ := Prod.mk.inj (Option.some.inj (he.symm.trans e))
    exact .allocated hpos hle hf
  · obtain ⟨rfl, rfl⟩ := Prod.mk.inj (Option.some.inj (he.symm.trans e))
    exact ⟨∅, Nat.zero_le 1, by simp, fun j => by simp⟩

theorem putObj_heapTable : Unchanged Kernel.heapTable (putObj a o) := by
  intro k u k' e
  unfold putObj at e
  split_ifs at e
  cases e
  rfl

theorem getObj_heapTable : Unchanged Kernel.heapTable (getObj a) := by
  intro k u k' e
  unfold getObj at e
  split_ifs at e
  obtain ⟨o, -, he⟩ := Option.map_eq_some_iff.mp e
  cases he
  rfl

theorem setDirectoryEntry_heapTable {i v : ℕ} :
    Unchanged Kernel.heapTable (setDirectoryEntry a i v) := by
  refine .bind (.bind getObj_heapTable fun o => ?_) fun f => putObj_heapTable
  cases o with
  | directory f => exact .pure f
  | _ => exact .fault

/-- A block for each table, by recursion on those that are left. -/
theorem pagingNew4gbLoop_takes : ∀ (fuel i offset : ℕ),
    Takes fuel (pagingNew4gbLoop flags directory fuel i offset)
  | 0, _, _ => .of_unchanged (.pure _)
  | fuel + 1, i, offset => by
    have hround : Takes (1 + (0 + (0 + fuel)))
        (pagingNew4gbLoop flags directory (fuel + 1) i offset) :=
      .bind (kzalloc_takes (by omega) le_rfl) fun _ => .bind (.of_unchanged putObj_heapTable)
        fun _ => .bind (.of_unchanged setDirectoryEntry_heapTable) fun _ =>
          pagingNew4gbLoop_takes fuel (i + 1) _
    rwa [show 1 + (0 + (0 + fuel)) = fuel + 1 by omega] at hround

/-- A block for the directory, one for each table and one for the chunk. -/
theorem pagingNew4gb_takes : Takes 1026 (pagingNew4gb flags) := by
  have hrest (directory : ℕ) : Takes (1024 + (1 + (0 + 0))) (do
      pagingNew4gbLoop flags directory 1024 0 0
      let chunk ← kzalloc 4
      putObj chunk (.chunk directory)
      return chunk) :=
    .bind (pagingNew4gbLoop_takes 1024 0 0) fun _ => .bind (kzalloc_takes (by omega) (by omega))
      fun _ => .bind (.of_unchanged putObj_heapTable) fun _ => .of_unchanged (.pure _)
  refine .bind (n := 1) (m := 1025) (kzalloc_takes (by omega) le_rfl) fun directory => ?_
  show Takes 1025 (if directory ≠ 0 then _ else _)
  split_ifs
  · exact .bind (n := 0) (m := 1025) (.of_unchanged putObj_heapTable) fun _ => hrest directory
  · exact hrest directory

end New

/-! ## The blocks that are freed -/

/-- `k'` is `k` with the blocks at the pointers of `S` free. -/
def Kernel.Clears (S : ℕ → Prop) (k k' : Kernel) : Prop :=
  ∀ j : Int, (∃ b : ℕ, j = b ∧ S (blockAddr b)) ∧ k'.heapTable j = blockFree ∨
    ¬(∃ b : ℕ, j = b ∧ S (blockAddr b)) ∧ k'.heapTable j = k.heapTable j

namespace Kernel.Clears

variable {S S' : ℕ → Prop} {p : ℕ}

/-- A single block is cleared. -/
theorem release (h : k.Single p) : Clears (· = p) k (k.release p) := by
  obtain ⟨b, hb, rfl, hs⟩ := h
  intro j
  have hbyte : (k.release (blockAddr b)).heapTable j = if j = b then blockFree else k.heapTable j :=
    release_table_single hb hs j
  by_cases hj : j = b
  · exact .inl ⟨⟨b, hj, rfl⟩, by rw [hbyte, if_pos hj]⟩
  · refine .inr ⟨?_, by rw [hbyte, if_neg hj]⟩
    rintro ⟨b', rfl, he⟩
    exact hj (by rw [blockAddr_inj.mp he])

/-- What is cleared in two steps is cleared. -/
theorem trans (h : Clears S k k₁) (h' : Clears S' k₁ k') : Clears (fun p => S p ∨ S' p) k k' := by
  intro j
  rcases h' j with ⟨⟨b, hj, hb⟩, hfree⟩ | ⟨hno', he'⟩
  · exact .inl ⟨⟨b, hj, .inr hb⟩, hfree⟩
  · rcases h j with ⟨⟨b, hj, hb⟩, hfree⟩ | ⟨hno, he⟩
    · exact .inl ⟨⟨b, hj, .inl hb⟩, he'.trans hfree⟩
    · refine .inr ⟨?_, he'.trans he⟩
      rintro ⟨b, hj, hb | hb⟩
      · exact hno ⟨b, hj, hb⟩
      · exact hno' ⟨b, hj, hb⟩

theorem congr (h : Clears S k k') (hS : ∀ p, S p ↔ S' p) : Clears S' k k' := by
  rwa [show S' = S from (funext fun p => propext (hS p)).symm]

end Kernel.Clears

/-- The state after the tables of `fuel` directory entries from `i` on are freed. -/
def Kernel.withoutTables (f : ℕ → ℕ) : (fuel i : ℕ) → Kernel → Kernel
  | 0, _, k => k
  | fuel + 1, i, k => withoutTables f fuel (i + 1) (k.release (entryAddress (f i)))

/-- The state after the tables, the directory and the chunk are freed. -/
def Kernel.withoutSpace (k : Kernel) (c d : ℕ) (f : ℕ → ℕ) : Kernel :=
  ((k.withoutTables f 1024 0).release d).release c

/-- The tables are freed from entry `i` on, by recursion on those that are left. -/
theorem pagingFree4gbLoop_run (hc0 : c ≠ 0) (hd0 : d ≠ 0)
    (hne : ∀ i < 1024, c ≠ entryAddress (f i) ∧ d ≠ entryAddress (f i)) :
    ∀ (fuel i : ℕ) (k : Kernel), i + fuel ≤ 1024 → k.store c = some (.chunk d) →
      k.store d = some (.directory f) →
      pagingFree4gbLoop c fuel i k = some ((), k.withoutTables f fuel i) ∧
        (k.withoutTables f fuel i).store c = some (.chunk d)
  | 0, _, _, _, hc, _ => ⟨rfl, hc⟩
  | fuel + 1, i, k, hi, hc, hd => by
    obtain ⟨hci, hdi⟩ := hne i (by omega)
    have hchunk : getChunk c k = some (d, k) := by
      simp [getChunk, run_bind, Kernel.getObj_run hc0 hc, run_pure]
    have hdirectory : getDirectory d k = some (f, k) := by
      simp [getDirectory, run_bind, Kernel.getObj_run hd0 hd, run_pure]
    have hrest := pagingFree4gbLoop_run hc0 hd0 hne fuel (i + 1) (k.release (entryAddress (f i)))
      (by omega) (by rw [Kernel.release_store, if_neg hci, hc])
      (by rw [Kernel.release_store, if_neg hdi, hd])
    rw [pagingFree4gbLoop, run_bind, hchunk, Option.bind_some, run_bind, hdirectory,
      Option.bind_some]
    exact hrest

/-- `paging_free_4gb` follows the entries of a directory, whatever they lead to. -/
theorem pagingFree4gb_follows (hc0 : c ≠ 0) (hd0 : d ≠ 0)
    (hne : ∀ i < 1024, c ≠ entryAddress (f i) ∧ d ≠ entryAddress (f i))
    (hc : k.store c = some (.chunk d)) (hd : k.store d = some (.directory f)) :
    pagingFree4gb c k = some ((), k.withoutSpace c d f) := by
  obtain ⟨hrun, hc'⟩ := pagingFree4gbLoop_run hc0 hd0 hne 1024 0 k le_rfl hc hd
  have hchunk : getChunk c (k.withoutTables f 1024 0) = some (d, k.withoutTables f 1024 0) := by
    simp [getChunk, run_bind, Kernel.getObj_run hc0 hc', run_pure]
  rw [pagingFree4gb, run_bind, hrun, Option.bind_some, run_bind, hchunk, Option.bind_some,
    Kernel.withoutSpace]
  generalize k.withoutTables f 1024 0 = k₁
  rfl

namespace Maps

/-- The chunk, the directory and the tables are different. -/
theorem pointers_ne (h : Maps k c d f e) :
    c ≠ d ∧ ∀ i < 1024, c ≠ entryAddress (f i) ∧ d ≠ entryAddress (f i) := by
  refine ⟨?_, fun i hi => ?_⟩
  · rintro rfl
    have := h.chunk.symm.trans h.directory
    cases this
  · obtain ⟨g, hg, -⟩ := h.table i hi
    refine ⟨fun he => ?_, fun he => ?_⟩
    · rw [← he, h.chunk] at hg
      cases hg
    · rw [← he, h.directory] at hg
      cases hg

/-- `paging_free_4gb` on an address space. -/
theorem pagingFree4gb_run (h : Maps k c d f e) :
    pagingFree4gb c k = some ((), k.withoutSpace c d f) :=
  pagingFree4gb_follows h.chunk_ne h.directory_ne h.pointers_ne.2 h.chunk h.directory

end Maps

/-- They are what is cleared. -/
theorem Kernel.withoutTables_clears :
    ∀ (fuel i : ℕ) (k : Kernel), i + fuel ≤ 1024 → (∀ j < 1024, k.Single (entryAddress (f j))) →
      Kernel.Clears (fun p => ∃ j, i ≤ j ∧ j < i + fuel ∧ p = entryAddress (f j)) k
          (k.withoutTables f fuel i) ∧
        ∀ q, k.Single q → (k.withoutTables f fuel i).Single q
  | 0, i, k, _, _ => ⟨fun j => .inr ⟨by rintro ⟨b, -, j, h1, h2, -⟩; omega, rfl⟩, fun _ hq => hq⟩
  | fuel + 1, i, k, hi, hs => by
    have hsi := hs i (by omega)
    obtain ⟨hclear, hsingle⟩ := withoutTables_clears fuel (i + 1) (k.release (entryAddress (f i)))
      (by omega) fun j hj => (hs j hj).release hsi
    refine ⟨((Clears.release hsi).trans hclear).congr fun p => ?_, fun q hq =>
      hsingle q (hq.release hsi)⟩
    constructor
    · rintro (rfl | ⟨j, h1, h2, rfl⟩)
      · exact ⟨i, le_rfl, by omega, rfl⟩
      · exact ⟨j, by omega, by omega, rfl⟩
    · rintro ⟨j, h1, h2, rfl⟩
      rcases Nat.eq_or_lt_of_le h1 with rfl | hlt
      · exact .inl rfl
      · exact .inr ⟨j, hlt, by omega, rfl⟩

/-- Freeing a space of single blocks frees the blocks at its pointers and no others. -/
theorem Kernel.withoutSpace_clears (hs : ∀ p, SpacePointer c d f p → k.Single p) :
    Kernel.Clears (SpacePointer c d f) k (k.withoutSpace c d f) := by
  obtain ⟨hclear, hsingle⟩ := withoutTables_clears (f := f) 1024 0 k le_rfl fun j hj =>
    hs _ (.inr (.inr ⟨j, hj, rfl⟩))
  have hd := hsingle d (hs d (.inr (.inl rfl)))
  have hc := (hsingle c (hs c (.inl rfl))).release hd
  refine ((hclear.trans (.release hd)).trans (.release hc)).congr fun p => ?_
  constructor
  · rintro ((⟨j, -, hj, rfl⟩ | rfl) | rfl)
    · exact .inr (.inr ⟨j, by omega, rfl⟩)
    · exact .inr (.inl rfl)
    · exact .inl rfl
  · rintro (rfl | rfl | ⟨i, hi, rfl⟩)
    · exact .inr rfl
    · exact .inl (.inr rfl)
    · exact .inl (.inl ⟨i, Nat.zero_le i, by omega, rfl⟩)

/-! ## The heap after building and taking down -/

/-- The block at a pointer into the heap. -/
def blockOf (p : ℕ) : ℕ := (p - heapAddress) / 4096

@[simp] theorem blockOf_blockAddr (b : ℕ) : blockOf (blockAddr b) = b := by
  unfold blockOf blockAddr
  omega

/-- A free block is found by its address. -/
theorem Kernel.Fresh.blockAddr_blockOf {p : ℕ} (h : k.Fresh p) :
    blockAddr (blockOf p) = p ∧ k.table.IsFree (blockOf p) := by
  obtain ⟨b, -, rfl, hf⟩ := h
  rw [blockOf_blockAddr]
  exact ⟨rfl, hf⟩

/-- The blocks at the pointers of a space. -/
def spaceBlocks (c d : ℕ) (f : ℕ → ℕ) : Finset ℕ :=
  insert (blockOf c) (insert (blockOf d)
    ((Finset.range 1024).image fun i => blockOf (entryAddress (f i))))

/-- The blocks of a space are those of its pointers. -/
theorem mem_spaceBlocks : b ∈ spaceBlocks c d f ↔ ∃ p, SpacePointer c d f p ∧ b = blockOf p := by
  unfold spaceBlocks SpacePointer
  simp only [Finset.mem_insert, Finset.mem_image, Finset.mem_range]
  constructor
  · rintro (rfl | rfl | ⟨i, hi, rfl⟩)
    · exact ⟨c, .inl rfl, rfl⟩
    · exact ⟨d, .inr (.inl rfl), rfl⟩
    · exact ⟨_, .inr (.inr ⟨i, hi, rfl⟩), rfl⟩
  · rintro ⟨p, rfl | rfl | ⟨i, hi, rfl⟩, rfl⟩
    · exact .inl rfl
    · exact .inr (.inl rfl)
    · exact .inr (.inr ⟨i, hi, rfl⟩)

section Space

variable {T : ℕ → (ℕ → ℕ) → Prop} {flags : ℕ}

/-- The pointers of a space satisfy what the space says of them. -/
theorem SpaceAt.pointer {P : ℕ → Prop} (h : SpaceAt P T k c d f) {p : ℕ}
    (hp : SpacePointer c d f p) : P p := by
  rcases hp with rfl | rfl | ⟨i, hi, rfl⟩
  · exact h.chunk_mem
  · exact h.directory_mem
  · exact (h.table i hi).1

/-- The 1026 pointers of a space at single blocks lead to different blocks. -/
theorem Maps.card_spaceBlocks (h : Maps k' c d f e)
    (hp : ∀ p, SpacePointer c d f p → blockAddr (blockOf p) = p) :
    (spaceBlocks c d f).card = 1026 := by
  obtain ⟨hcd, hne⟩ := h.pointers_ne
  have hinj : ∀ {p q}, SpacePointer c d f p → SpacePointer c d f q → blockOf p = blockOf q →
      p = q := fun {p q} hp' hq he => by rw [← hp p hp', he, hp q hq]
  have htables : ((Finset.range 1024).image fun i => blockOf (entryAddress (f i))).card = 1024 := by
    rw [Finset.card_image_of_injOn, Finset.card_range]
    intro i hi j hj he
    have hi' : i < 1024 := by simpa using hi
    have hj' : j < 1024 := by simpa using hj
    exact h.inj i hi' j hj' (hinj (.inr (.inr ⟨i, hi', rfl⟩)) (.inr (.inr ⟨j, hj', rfl⟩)) he)
  rw [spaceBlocks, Finset.card_insert_of_notMem, Finset.card_insert_of_notMem, htables]
  · intro hmem
    obtain ⟨i, hi, he⟩ := Finset.mem_image.mp hmem
    have hi' : i < 1024 := by simpa using hi
    exact (hne i hi').2 (hinj (.inr (.inr ⟨i, hi', rfl⟩)) (.inr (.inl rfl)) he).symm
  · intro hmem
    rcases Finset.mem_insert.mp hmem with he | hmem
    · exact hcd (hinj (.inl rfl) (.inr (.inl rfl)) he)
    · obtain ⟨i, hi, he⟩ := Finset.mem_image.mp hmem
      have hi' : i < 1024 := by simpa using hi
      exact (hne i hi').1 (hinj (.inr (.inr ⟨i, hi', rfl⟩)) (.inl rfl) he).symm

/-- Building a space and freeing its blocks, whatever its tables hold by then, leaves the
heap as it was. -/
theorem SpaceAt.reclaimed (h : SpaceAt (fun q => k.Fresh q ∧ k₁.Owns q 1) T k₁ c d f)
    (hmaps : Maps k₁ c d f e) (htakes : k.TakesSingles 1026 k₁)
    (hsame : k'.heapTable = k₁.heapTable) : (k'.withoutSpace c d f).heapTable = k.heapTable := by
  have htable : k'.table = k₁.table := by simp [Kernel.table, Kernel.heap, hsame]
  have hcard := hmaps.card_spaceBlocks fun p hp => (h.pointer hp).1.blockAddr_blockOf.1
  have hbytes := htakes.eq_of_pointers hcard.ge
    (fun b hb => by
      obtain ⟨p, hp, rfl⟩ := mem_spaceBlocks.mp hb
      exact (h.pointer hp).1.blockAddr_blockOf.2)
    (fun b hb => by
      obtain ⟨p, hp, rfl⟩ := mem_spaceBlocks.mp hb
      obtain ⟨b, rfl, hheld⟩ := (h.pointer hp).2
      rw [blockOf_blockAddr]
      exact hheld.not_isFree_start)
  have hclear := Kernel.withoutSpace_clears (k := k') (c := c) (d := d) (f := f) fun p hp =>
    ((h.pointer hp).2.of_table htable).single
  funext j
  rcases hclear j with ⟨⟨b, rfl, hb⟩, hfree⟩ | ⟨hno, he⟩
  · have hfresh := (h.pointer hb).1.blockAddr_blockOf.2
    rw [blockOf_blockAddr] at hfresh
    exact hfree.trans hfresh.symm
  · rw [he, hsame, hbytes j, if_neg]
    rintro ⟨b, hb, rfl⟩
    obtain ⟨p, hp, rfl⟩ := mem_spaceBlocks.mp hb
    refine hno ⟨_, rfl, ?_⟩
    rwa [(h.pointer hp).1.blockAddr_blockOf.1]

end Space

/-! ## Calls on a space -/

/-- A call on an address space. -/
inductive SpaceCall
  | set (virt val : ℕ)
  | mapTo (virt phys physEnd flags : ℕ)

/-- The virtual address that a call is given. -/
def SpaceCall.virt : SpaceCall → ℕ
  | .set virt _ => virt
  | .mapTo virt _ _ _ => virt

/-- `paging_set` takes the directory of the chunk. -/
def SpaceCall.run (chunk : ℕ) : SpaceCall → KernelM Int
  | .set virt val => do
    let directory ← getChunk chunk
    pagingSet directory virt val
  | .mapTo virt phys physEnd flags => pagingMapTo chunk virt phys physEnd flags

/-- The calls in order. Their results are not looked at. -/
def runSpaceCalls (chunk : ℕ) : List SpaceCall → KernelM Unit
  | [] => return
  | call :: calls => do
    let _ ← call.run chunk
    runSpaceCalls chunk calls

/-- A call changes the contents of the tables only. -/
theorem SpaceCall.run_meets (h : Maps k c d f e) (call : SpaceCall)
    (hlt : call.virt < 4294967296) :
    Meets True (call.run c) k fun _ k' => TablesOnly f k k' ∧ ∃ e', Maps k' c d f e' := by
  cases call with
  | set virt val =>
    rw [SpaceCall.run, Meets.bind_iff, Kernel.getChunk_meets h.chunk_ne h.chunk]
    by_cases hv : virt % 4096 = 0
    · exact (pagingSet_meets h hv hlt).mono fun _ _ ⟨_, hm, ht⟩ => ⟨ht, _, hm⟩
    · exact .of_run_eq (pagingSet_unaligned hv) ⟨.refl, _, h⟩
  | mapTo virt phys physEnd flags =>
    refine (pagingMapTo_meets h hlt).mono ?_
    rintro _ k' (⟨-, -, hm, ht⟩ | ⟨-, -, rfl⟩)
    · exact ⟨ht, _, hm⟩
    · exact ⟨.refl, _, h⟩

/-- Mappings change entries only, by recursion on the calls. -/
theorem runSpaceCalls_meets : ∀ (calls : List SpaceCall) {k : Kernel} {e : ℕ → ℕ},
    Maps k c d f e → (∀ call ∈ calls, call.virt < 4294967296) →
    Meets True (runSpaceCalls c calls) k fun _ k' => TablesOnly f k k' ∧ ∃ e', Maps k' c d f e'
  | [], _, _, h, _ => Meets.pure_iff.mpr ⟨.refl, _, h⟩
  | call :: calls, k, e, h, hlt => by
    refine .bind (call.run_meets h (hlt call (by simp))) ?_
    rintro _ k₁ ⟨ht₁, e₁, h₁⟩
    refine (runSpaceCalls_meets calls h₁ fun call' hmem => hlt call' (by simp [hmem])).mono ?_
    rintro _ k₂ ⟨ht₂, hm₂⟩
    exact ⟨ht₁.trans ht₂, hm₂⟩

/-- Whatever is mapped in a new space, taking the space down gives back all its blocks and
nothing else. -/
theorem addressSpace_reclaimed {flags : ℕ} (hf : flags < 256) (hfree : 1026 ≤ k.freeBlocks) :
    ∃ chunk k₁, pagingNew4gb flags k = some (chunk, k₁) ∧
      ∀ calls : List SpaceCall, (∀ call ∈ calls, call.virt < 4294967296) →
        ∃ k₂ k₃, runSpaceCalls chunk calls k₁ = some ((), k₂) ∧
          pagingFree4gb chunk k₂ = some ((), k₃) ∧ k₃.heapTable = k.heapTable := by
  have hroom : k.Roomy (heapTotalBlocks - k.freeBlocks) := ⟨by omega⟩
  have hle := k.freeBlocks_le
  have hbuilt : Meets True (pagingNew4gb flags) k _ :=
    pagingNew4gb_built (show flags < 4096 by omega) fun _ => ⟨hroom, by omega⟩
  obtain ⟨chunk, k₁, hrun, -, -, -, -, d, f, hspace, hinj⟩ := hbuilt.exists_result
  have hmaps := hspace.maps (fun p hp => hp.1.ne_zero) hinj
  refine ⟨chunk, k₁, hrun, fun calls hcalls => ?_⟩
  obtain ⟨_, k₂, hrun₂, ht, e, hmaps₂⟩ := (runSpaceCalls_meets calls hmaps hcalls).exists_result
  exact ⟨k₂, _, hrun₂, hmaps₂.pagingFree4gb_run,
    hspace.reclaimed hmaps (pagingNew4gb_takes k chunk k₁ hrun) ht.heapTable⟩

/-- A page is mapped and the space is taken down. -/
theorem addressSpace_reclaimed_mapped : ∃ chunk k₁,
    pagingNew4gb 7 Kernel.empty = some (chunk, k₁) ∧
      ∃ k₂ k₃, runSpaceCalls chunk [.mapTo 0x400000 0x5000 0x6000 7, .set 0x401000 0] k₁ =
          some ((), k₂) ∧ pagingFree4gb chunk k₂ = some ((), k₃) ∧
        k₃.heapTable = Kernel.empty.heapTable := by
  obtain ⟨chunk, k₁, hrun, hall⟩ := addressSpace_reclaimed (k := Kernel.empty)
    (show 7 < 256 by decide)
    (Kernel.le_freeBlocks (fun _ _ _ => rfl) (show 0 + 1026 ≤ heapTotalBlocks by decide))
  exact ⟨chunk, k₁, hrun, hall _ (by decide)⟩

end Hyperion
