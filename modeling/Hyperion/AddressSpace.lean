import Hyperion.KernelHeap
import Hyperion.Paging

/-!
# Address spaces

What `paging_new_4gb` builds and `paging_free_4gb` takes down. `Space P T k c` says that
`c` points to a page directory all of whose 1024 entries lead to a page table, that
every pointer on the way satisfies `P`, and that the table under directory entry `i`
satisfies `T i`. The entries have flags in their low bits, which `entryAddress` takes off
(`entryAddress_or`).

`Built` is the invariant of the loop : after the entries below `i`, the tables were
allocated since, lead to different blocks and map every page to itself (`MapsSelf`).
`Built.step` is one round, which takes a block and stores a table to it, and `Built.space`
the end, where the struct that points to the directory is allocated. The loop checks no
pointer, so that a request that is not served is a store through null, which has no result
here (`pagingNew4gbLoop_null`). `pagingNew4gb_built` puts the rounds together for a heap
with blocks enough.

The other way round, a property that survives the release of every pointer of a space
survives its end (`pagingFree4gb_meets`), whatever else the heap holds.
-/

namespace Hyperion

open Partial

/-! ## Entries -/

theorem or_flags {p flags : ℕ} (hp : p % 4096 = 0) (hf : flags < 4096) :
    p ||| flags = p + flags := by
  obtain ⟨q, rfl⟩ : 4096 ∣ p := Nat.dvd_of_mod_eq_zero hp
  exact (Nat.two_pow_add_eq_or_of_lt (i := 12) hf q).symm

theorem entryAddress_eq (e : ℕ) : entryAddress e = e / 4096 % 1048576 * 4096 := by
  have hmask : 0xfffff000 = (2 ^ 20 - 1) <<< 12 := by decide
  have hr : e / 4096 % 1048576 * 4096 = ((e >>> 12) % 2 ^ 20) <<< 12 := by
    rw [Nat.shiftRight_eq_div_pow, Nat.shiftLeft_eq]
    rfl
  rw [entryAddress, hmask, hr]
  refine Nat.eq_of_testBit_eq fun i => ?_
  rw [Nat.testBit_and, Nat.testBit_shiftLeft, Nat.testBit_shiftLeft, Nat.testBit_mod_two_pow,
    Nat.testBit_shiftRight, Nat.testBit_two_pow_sub_one]
  by_cases hi : 12 ≤ i
  · rw [Nat.add_sub_cancel' hi]
    simp [hi, Bool.and_comm]
  · simp [hi]

theorem entryAddress_or {p flags : ℕ} (hp : p % 4096 = 0) (hlt : p < 4294967296)
    (hf : flags < 4096) : entryAddress (p ||| flags) = p := by
  rw [or_flags hp hf, entryAddress_eq]
  omega

/-! ## Spaces -/

/-- `c` points to the directory at `d`, whose entries `f` all lead to a table. -/
structure SpaceAt (P : ℕ → Prop) (T : ℕ → (ℕ → ℕ) → Prop) (k : Kernel) (c d : ℕ) (f : ℕ → ℕ) :
    Prop where
  chunk : k.store c = some (.chunk d)
  directory : k.store d = some (.directory f)
  chunk_mem : P c
  directory_mem : P d
  table : ∀ i < 1024, P (entryAddress (f i)) ∧
    ∃ g, k.store (entryAddress (f i)) = some (.table g) ∧ T i g

/-- `c` points to an address space. -/
def Space (P : ℕ → Prop) (T : ℕ → (ℕ → ℕ) → Prop) (k : Kernel) (c : ℕ) : Prop :=
  ∃ d f, SpaceAt P T k c d f

variable {P P' : ℕ → Prop} {T T' : ℕ → (ℕ → ℕ) → Prop} {k k' k₀ : Kernel} {c d : ℕ} {f : ℕ → ℕ}

theorem SpaceAt.imp (h : SpaceAt P T k c d f) (hP : ∀ p, P p → P' p)
    (hT : ∀ i g, T i g → T' i g) (hs : ∀ p, P p → k'.store p = k.store p) :
    SpaceAt P' T' k' c d f where
  chunk := (hs c h.chunk_mem).trans h.chunk
  directory := (hs d h.directory_mem).trans h.directory
  chunk_mem := hP c h.chunk_mem
  directory_mem := hP d h.directory_mem
  table i hi := by
    obtain ⟨hp, g, hg, ht⟩ := h.table i hi
    exact ⟨hP _ hp, g, (hs _ hp).trans hg, hT i g ht⟩

/-- A space survives a change of the store away from its pointers. -/
theorem Space.imp (h : Space P T k c) (hP : ∀ p, P p → P' p) (hT : ∀ i g, T i g → T' i g)
    (hs : ∀ p, P p → k'.store p = k.store p) : Space P' T' k' c := by
  obtain ⟨d, f, h⟩ := h
  exact ⟨d, f, h.imp hP hT hs⟩

/-- The pointers of a space are not those of other structures. -/
theorem SpaceAt.ne (h : SpaceAt P T k c d f) {a : ℕ}
    (ha : ∀ o, k.store a = some o → (∃ t, o = .task t) ∨ ∃ p, o = .process p) :
    SpaceAt (fun p => P p ∧ p ≠ a) T k c d f := by
  have hno : ∀ p o, k.store p = some o → (∀ t, o ≠ .task t) → (∀ q, o ≠ .process q) → p ≠ a := by
    rintro p o ho ht hp rfl
    rcases ha o ho with ⟨t, rfl⟩ | ⟨q, rfl⟩
    · exact ht t rfl
    · exact hp q rfl
  refine ⟨h.chunk, h.directory, ⟨h.chunk_mem, ?_⟩, ⟨h.directory_mem, ?_⟩, fun i hi => ?_⟩
  · exact hno c _ h.chunk (by simp) (by simp)
  · exact hno d _ h.directory (by simp) (by simp)
  · obtain ⟨hp, g, hg, ht⟩ := h.table i hi
    exact ⟨⟨hp, hno _ _ hg (by simp) (by simp)⟩, g, hg, ht⟩

/-! ## `paging_new_4gb` -/

/-- Table `i` maps every page to itself, with `flags`. -/
def MapsSelf (flags i : ℕ) (g : ℕ → ℕ) : Prop :=
  ∀ j, g j = ((i * 4194304 + j * 4096) % 4294967296) ||| flags

/-- What the loop of `paging_new_4gb` has built after the entries below `i` : the tables
were allocated since `k₀`. -/
structure Built (flags : ℕ) (k₀ k : Kernel) (directory i : ℕ) (f : ℕ → ℕ) : Prop where
  ext : k₀.Extends k
  globals : k.globals = k₀.globals
  fresh : k₀.Fresh directory
  owns : k.Owns directory 1
  directory : k.store directory = some (.directory f)
  table : ∀ j < i, (k₀.Fresh (entryAddress (f j)) ∧ k.Owns (entryAddress (f j)) 1) ∧
    ∃ g, k.store (entryAddress (f j)) = some (.table g) ∧ MapsSelf flags j g
  inj : ∀ j < i, ∀ j' < i, entryAddress (f j) = entryAddress (f j') → j = j'
  count : k.freeBlocks + (i + 1) ≤ k₀.freeBlocks

/-- One round : a block is taken for the table of entry `i`. -/
theorem Built.step {flags directory i : ℕ} {f : ℕ → ℕ} (h : Built flags k₀ k directory i f)
    (hflags : flags < 4096) {b : ℕ} (hb : b < heapTotalBlocks) (hf : k.table.IsFree b)
    {g : ℕ → ℕ} (hg : MapsSelf flags i g) :
    Built flags k₀ (((k.allocated b 4096).put (blockAddr b) (.table g)).put directory
      (.directory fun j => if j = i then blockAddr b ||| flags ||| pagingIsWriteable else f j))
      directory (i + 1)
      (fun j => if j = i then blockAddr b ||| flags ||| pagingIsWriteable else f j) := by
  have hfresh : k.Fresh (blockAddr b) := ⟨b, hb, rfl, hf⟩
  have hne : ∀ p n, k.Owns p n → p ≠ blockAddr b := fun p n ho he => ho.not_fresh (he ▸ hfresh)
  have hext := h.ext.allocated_one (show 1 ≤ 4096 by omega) le_rfl hb hf
  have hflags' : flags ||| pagingIsWriteable < 4096 :=
    Nat.or_lt_two_pow (n := 12) hflags (by decide)
  have haddr : entryAddress (blockAddr b ||| flags ||| pagingIsWriteable) = blockAddr b := by
    have := blockAddr_lt hb
    rw [Nat.or_assoc, entryAddress_or (blockAddr_mod b) (by omega) hflags']
  have hmono : ∀ p n, k.Owns p n → (k.allocated b 4096).Owns p n := fun p n ho =>
    ((Kernel.Extends.refl k).allocated_one (by omega) le_rfl hb hf).owns ho
  refine ⟨(hext.put (h.ext.fresh hfresh) _).put h.fresh _, by simpa using h.globals, h.fresh,
    hmono _ _ h.owns, by simp, fun j hj => ?_, fun j hj j' hj' => ?_, ?_⟩
  rotate_left
  · -- the new table is at a block that was free
    have hnew : ∀ j < i, entryAddress (f j) ≠ blockAddr b := fun j hj =>
      hne _ _ (h.table j hj).1.2
    split_ifs with h1 h2 h2
    · exact fun _ => h1.trans h2.symm
    · rw [haddr]
      exact fun he => absurd he.symm (hnew j' (by omega))
    · rw [haddr]
      exact fun he => absurd he (hnew j (by omega))
    · exact h.inj j (by omega) j' (by omega)
  · have hcount := Kernel.freeBlocks_allocated_lt hb hf (show 0 < requestBlocks 4096 by decide)
    have := h.count
    show (k.allocated b 4096).freeBlocks + _ ≤ _
    omega
  by_cases hji : j = i
  · subst hji
    simp only [if_true, haddr]
    refine ⟨⟨h.ext.fresh hfresh, Kernel.allocated_owns_one (by omega) le_rfl hb⟩, g, ?_, hg⟩
    rw [Kernel.put_store, if_neg (hne _ _ h.owns).symm, Kernel.put_store, if_pos rfl]
  · simp only [if_neg hji]
    obtain ⟨⟨hfr, ho⟩, g', hg', ht⟩ := h.table j (by omega)
    refine ⟨⟨hfr, hmono _ _ ho⟩, g', ?_, ht⟩
    have hnd : entryAddress (f j) ≠ directory := by
      intro he
      rw [he, h.directory] at hg'
      cases hg'
    rw [Kernel.put_store, if_neg hnd, Kernel.put_store, if_neg (hne _ _ ho),
      Kernel.allocated_store, if_neg (fun he => hne _ _ ho he.1), hg']

/-- The last step : a block is taken for the struct that points to the directory. -/
theorem Built.space {flags directory b : ℕ} (h : Built flags k₀ k directory 1024 f)
    (hb : b < heapTotalBlocks) (hf : k.table.IsFree b) :
    SpaceAt (fun q => k₀.Fresh q ∧
      ((k.allocated b 4).put (blockAddr b) (.chunk directory)).Owns q 1)
      (MapsSelf flags) ((k.allocated b 4).put (blockAddr b) (.chunk directory)) (blockAddr b)
        directory f ∧
      ∀ i < 1024, ∀ j < 1024, entryAddress (f i) = entryAddress (f j) → i = j := by
  have hfresh : k.Fresh (blockAddr b) := ⟨b, hb, rfl, hf⟩
  have hmono : ∀ p, k.Owns p 1 → (k.allocated b 4).Owns p 1 := fun p ho =>
    ((Kernel.Extends.refl k).allocated_one (by omega) (by omega) hb hf).owns ho
  have hsame : ∀ p, k.Owns p 1 →
      ((k.allocated b 4).put (blockAddr b) (.chunk directory)).store p = k.store p := by
    intro p ho
    have hne : p ≠ blockAddr b := fun he => ho.not_fresh (he ▸ hfresh)
    rw [Kernel.put_store, if_neg hne, Kernel.allocated_store, if_neg (fun he => hne he.1)]
  refine ⟨⟨by simp, by rw [hsame _ h.owns, h.directory],
    ⟨h.ext.fresh hfresh, Kernel.allocated_owns_one (by omega) (by omega) hb⟩,
    ⟨h.fresh, hmono _ h.owns⟩, fun i hi => ?_⟩, h.inj⟩
  obtain ⟨⟨hfr, ho⟩, g, hg, ht⟩ := h.table i hi
  exact ⟨⟨hfr, hmono _ ho⟩, g, by rw [hsame _ ho, hg], ht⟩

theorem pagingNew4gbLoop_meets {r : Prop} {flags directory : ℕ} (hflags : flags < 4096) :
    ∀ (fuel i : ℕ) (offset : ℕ) (k : Kernel) (f : ℕ → ℕ) (c : ℕ), i + fuel ≤ 1024 →
      offset = i * 4194304 % 4294967296 → Built flags k₀ k directory i f →
      (r → k.Roomy c ∧ c + fuel ≤ heapTotalBlocks) →
      Meets r (pagingNew4gbLoop flags directory fuel i offset) k fun _ k' =>
        (∃ f', Built flags k₀ k' directory (i + fuel) f') ∧ (r → k'.Roomy (c + fuel))
  | 0, i, offset, k, f, c, _, _, h, hr => by
    simpa [pagingNew4gbLoop] using ⟨⟨f, h⟩, fun h' => (hr h').1⟩
  | fuel + 1, i, offset, k, f, c, hi, hoff, h, hr => by
    rw [pagingNew4gbLoop, Meets.bind_iff]
    refine Kernel.kzalloc_one_meets (c := c) (by omega) le_rfl
      (fun h' => ⟨(hr h').1, by have := (hr h').2; omega⟩) (fun h' => by simpa using h') ?_
    intro b hb hf hroom
    have hg : MapsSelf flags i fun j => ((offset + j * 4096) % 4294967296) ||| flags := by
      intro j
      show (offset + j * 4096) % 4294967296 ||| flags = _
      rw [show (offset + j * 4096) % 4294967296 = (i * 4194304 + j * 4096) % 4294967296 by omega]
    have hstep := h.step hflags hb hf hg
    have hd : k.store directory = some (.directory f) := h.directory
    have hne : directory ≠ blockAddr b := fun he => h.owns.not_fresh ⟨b, hb, he, hf⟩
    rw [Meets.bind_iff, Kernel.putObj_meets, if_neg (blockAddr_pos b), setDirectoryEntry,
      Meets.bind_iff, Meets.bind_iff, Kernel.getDirectory_meets h.owns.ne_zero (f := f),
      Kernel.putObj_meets, if_neg h.owns.ne_zero]
    · refine (pagingNew4gbLoop_meets hflags fuel (i + 1) _ _ _ (c + 1) (by omega) (by omega) hstep
        fun h' => ⟨(hroom h').of_heapTable rfl, by have := (hr h').2; omega⟩).mono
          fun _ k' h' => ?_
      rwa [show i + 1 + fuel = i + (fuel + 1) by omega,
        show c + 1 + fuel = c + (fuel + 1) by omega] at h'
    · rw [Kernel.put_store, if_neg hne, Kernel.allocated_store, if_neg (fun he => hne he.1), hd]

/-- Without a directory the first table entry is stored through null. -/
theorem pagingNew4gbLoop_null {r : Prop} {Q : Unit → Kernel → Prop} {flags fuel i offset : ℕ}
    (hr : ¬r) : Meets r (pagingNew4gbLoop flags 0 (fuel + 1) i offset) k Q := by
  rw [pagingNew4gbLoop, Meets.bind_iff]
  refine Kernel.kzalloc_one_meets (c := 0) (by omega) le_rfl (fun h => absurd h hr)
    (fun _ => by simpa using hr) fun b _ _ _ => ?_
  rw [Meets.bind_iff, Kernel.putObj_meets, if_neg (blockAddr_pos b), setDirectoryEntry]
  simpa [getDirectory] using hr

/-- The new space maps every page to itself, and all its blocks were free before. It takes
at least a block for each of its parts. -/
theorem pagingNew4gb_built {r : Prop} {flags c : ℕ} (hflags : flags < 4096)
    (hr : r → k.Roomy c ∧ c + 1026 ≤ heapTotalBlocks) :
    Meets r (pagingNew4gb flags) k fun p k' => k.Extends k' ∧ k'.globals = k.globals ∧
      (r → k'.Roomy (c + 1026)) ∧ k'.freeBlocks + 1026 ≤ k.freeBlocks ∧
      ∃ d f, SpaceAt (fun q => k.Fresh q ∧ k'.Owns q 1) (MapsSelf flags) k' p d f ∧
        ∀ i < 1024, ∀ j < 1024, entryAddress (f i) = entryAddress (f j) → i = j := by
  rw [pagingNew4gb, Meets.bind_iff]
  refine Kernel.kzalloc_one_meets (c := c) (by omega) le_rfl
    (fun h => ⟨(hr h).1, by have := (hr h).2; omega⟩) ?_ ?_
  · intro hnr
    simpa using (pagingNew4gbLoop_null hnr).mono fun _ _ h => h
  · intro b hb hf hroom
    have hfresh : k.Fresh (blockAddr b) := ⟨b, hb, rfl, hf⟩
    have hbuilt : Built flags k ((k.allocated b 4096).put (blockAddr b) (.directory fun _ => 0))
        (blockAddr b) 0 fun _ => 0 := by
      refine ⟨((Kernel.Extends.refl k).allocated_one (by omega) le_rfl hb hf).put hfresh _, by simp,
        hfresh, Kernel.allocated_owns_one (by omega) le_rfl hb, by simp,
        fun j hj => by omega, fun j hj => by omega, ?_⟩
      have hcount := Kernel.freeBlocks_allocated_lt hb hf (show 0 < requestBlocks 4096 by decide)
      show (k.allocated b 4096).freeBlocks + _ ≤ _
      omega
    simp only [Meets.bind_iff, Meets.ite_iff, Kernel.putObj_meets, if_neg (blockAddr_pos b)]
    refine ⟨fun _ => ?_, fun h => absurd (blockAddr_pos b) h⟩
    refine (pagingNew4gbLoop_meets hflags 1024 0 0 _ _ (c + 1) le_rfl rfl hbuilt
      fun h => ⟨(hroom h).of_heapTable rfl, by have := (hr h).2; omega⟩).mono fun _ k₁ => ?_
    rintro ⟨⟨f, h⟩, hroom₁⟩
    refine Kernel.kzalloc_one_meets (c := c + 1025) (by omega) (by omega)
      (fun h' => ⟨hroom₁ h', by have := (hr h').2; omega⟩) (fun h' => by simpa using h') ?_
    intro b' hb' hf' hroom'
    rw [if_neg (blockAddr_pos b'), Meets.pure_iff]
    obtain ⟨hspace, hinj⟩ := h.space hb' hf'
    refine ⟨(h.ext.allocated_one (by omega) (by omega) hb' hf').put
      (h.ext.fresh ⟨b', hb', rfl, hf'⟩) _, h.globals, fun h' => (hroom' h').of_heapTable rfl, ?_,
      _, f, hspace, hinj⟩
    have hcount := Kernel.freeBlocks_allocated_lt hb' hf' (show 0 < requestBlocks 4 by decide)
    have := h.count
    show (k₁.allocated b' 4).freeBlocks + 1026 ≤ _
    omega

/-! ## `paging_free_4gb` -/

/-- A property that survives the release of every pointer of a space survives its end. -/
theorem pagingFree4gbLoop_meets {I : Kernel → Prop}
    (hrel : ∀ k p, P p → I k → I (k.release p)) :
    ∀ (fuel i : ℕ) (k : Kernel), i + fuel ≤ 1024 → (∀ p, P p → p ≠ 0) →
      k.store c = some (.chunk d) → k.store d = some (.directory f) → P c → P d →
      (∀ j < 1024, i ≤ j → P (entryAddress (f j)) ∧
        ∀ o, k.store (entryAddress (f j)) = some o → ∃ g, o = .table g) → I k →
      Meets True (pagingFree4gbLoop c fuel i) k fun _ k' =>
        k'.store c = some (.chunk d) ∧ k'.store d = some (.directory f) ∧ I k'
  | 0, i, k, _, _, hc, hd, _, _, _, hI => by
    simpa [pagingFree4gbLoop] using ⟨hc, hd, hI⟩
  | fuel + 1, i, k, hi, h0, hc, hd, hPc, hPd, ht, hI => by
    obtain ⟨hp, ho⟩ := ht i (by omega) le_rfl
    have hcne : c ≠ entryAddress (f i) := by
      intro he
      obtain ⟨g, hg⟩ := ho _ (he ▸ hc)
      cases hg
    have hdne : d ≠ entryAddress (f i) := by
      intro he
      obtain ⟨g, hg⟩ := ho _ (he ▸ hd)
      cases hg
    rw [pagingFree4gbLoop, Meets.bind_iff, Kernel.getChunk_meets (h0 c hPc) hc, Meets.bind_iff,
      Kernel.getDirectory_meets (h0 d hPd) hd, kfree, Meets.bind_iff, Meets.modify_iff]
    refine pagingFree4gbLoop_meets hrel fuel (i + 1) _ (by omega) h0
      (by rw [Kernel.release_store, if_neg hcne, hc])
      (by rw [Kernel.release_store, if_neg hdne, hd]) hPc hPd (fun j hj hij => ?_) (hrel _ _ hp hI)
    obtain ⟨hp', ho'⟩ := ht j hj (by omega)
    refine ⟨hp', fun o h => ?_⟩
    rw [Kernel.release_store] at h
    split_ifs at h
    exact ho' o h

theorem pagingFree4gb_meets {I : Kernel → Prop} (hs : Space P T k c) (h0 : ∀ p, P p → p ≠ 0)
    (hrel : ∀ k p, P p → I k → I (k.release p)) (hI : I k) :
    Meets True (pagingFree4gb c) k fun _ k' => I k' := by
  obtain ⟨d, f, hs⟩ := hs
  rw [pagingFree4gb, Meets.bind_iff]
  refine (pagingFree4gbLoop_meets hrel 1024 0 k le_rfl h0 hs.chunk hs.directory hs.chunk_mem
    hs.directory_mem (fun j hj _ => ?_) hI).mono fun _ k₁ => ?_
  · obtain ⟨hp, g, hg, -⟩ := hs.table j hj
    refine ⟨hp, fun o ho => ⟨g, ?_⟩⟩
    rw [hg] at ho
    exact (Option.some.inj ho).symm
  · rintro ⟨hc, hd, hI₁⟩
    rw [Meets.bind_iff, Kernel.getChunk_meets (h0 c hs.chunk_mem) hc, kfree, kfree, Meets.bind_iff,
      Meets.modify_iff, Meets.modify_iff]
    exact hrel _ _ hs.chunk_mem (hrel _ _ hs.directory_mem hI₁)

end Hyperion
