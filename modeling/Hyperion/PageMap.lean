import Hyperion.AddressSpace

/-!
# Address spaces page by page

`Maps k c d f e` says that the space at `c`, with its directory at `d`, has the entry `e n`
for the page number `n`. `paging_set` changes the entry of one page, `paging_map_to` those
of a range of pages, and neither changes anything else (`TablesOnly`).
-/

namespace Hyperion

open Partial

/-- The number of pages of the address space. -/
abbrev pageCount : ℕ := 1048576

/-- The space at `c` has the tables that the entries `f` of the directory at `d` lead to,
all different, and the entry `e n` for the page `n`. -/
structure Maps (k : Kernel) (c d : ℕ) (f e : ℕ → ℕ) : Prop where
  chunk_ne : c ≠ 0
  directory_ne : d ≠ 0
  table_ne : ∀ i < 1024, entryAddress (f i) ≠ 0
  inj : ∀ i < 1024, ∀ j < 1024, entryAddress (f i) = entryAddress (f j) → i = j
  chunk : k.store c = some (.chunk d)
  directory : k.store d = some (.directory f)
  table : ∀ i < 1024, ∃ g, k.store (entryAddress (f i)) = some (.table g) ∧
    ∀ j < 1024, g j = e (1024 * i + j)

/-- The pointers of an address space. -/
def SpacePointer (c d : ℕ) (f : ℕ → ℕ) (p : ℕ) : Prop :=
  p = c ∨ p = d ∨ ∃ i < 1024, p = entryAddress (f i)

/-- The store at the pointers decides. -/
theorem Maps.congr {k k' : Kernel} {c d : ℕ} {f e : ℕ → ℕ} (h : Maps k c d f e)
    (hs : ∀ p, SpacePointer c d f p → k'.store p = k.store p) : Maps k' c d f e where
  chunk_ne := h.chunk_ne
  directory_ne := h.directory_ne
  table_ne := h.table_ne
  inj := h.inj
  chunk := (hs c (.inl rfl)).trans h.chunk
  directory := (hs d (.inr (.inl rfl))).trans h.directory
  table i hi := by
    rw [hs _ (.inr (.inr ⟨i, hi, rfl⟩))]
    exact h.table i hi

/-- The entries of a new address space : every page leads to itself. -/
def selfEntries (flags n : ℕ) : ℕ := n * 4096 % 4294967296 ||| flags

/-- A new address space page by page. -/
theorem SpaceAt.maps {P : ℕ → Prop} {k : Kernel} {c d flags : ℕ} {f : ℕ → ℕ}
    (h : SpaceAt P (MapsSelf flags) k c d f) (h0 : ∀ p, P p → p ≠ 0)
    (hinj : ∀ i < 1024, ∀ j < 1024, entryAddress (f i) = entryAddress (f j) → i = j) :
    Maps k c d f (selfEntries flags) where
  chunk_ne := h0 c h.chunk_mem
  directory_ne := h0 d h.directory_mem
  table_ne i hi := h0 _ (h.table i hi).1
  inj := hinj
  chunk := h.chunk
  directory := h.directory
  table i hi := by
    obtain ⟨-, g, hg, hself⟩ := h.table i hi
    refine ⟨g, hg, fun j _ => ?_⟩
    have hn : (1024 * i + j) * 4096 = i * 4194304 + j * 4096 := by omega
    rw [hself j, selfEntries, hn]

/-- A kernel with one address space, its tables one after another below the heap, in which no
page is mapped. -/
def Kernel.oneSpace : Kernel := { Kernel.empty with
  store := fun a =>
    if a = 4096 then some (.chunk 8192)
    else if a = 8192 then some (.directory fun i => 12288 + i * 4096)
    else if 12288 ≤ a ∧ a < 12288 + 4194304 ∧ a % 4096 = 0 then some (.table fun _ => 0)
    else none }

theorem Kernel.oneSpace_maps : Maps Kernel.oneSpace 4096 8192 (fun i => 12288 + i * 4096)
    fun _ => 0 := by
  have haddr : ∀ i < 1024, entryAddress (12288 + i * 4096) = 12288 + i * 4096 := by
    intro i hi
    rw [entryAddress_eq]
    omega
  refine ⟨by decide, by decide, fun i hi => ?_, fun i hi j hj he => ?_, rfl, rfl, fun i hi => ?_⟩
  · rw [haddr i hi]
    omega
  · rw [haddr i hi, haddr j hj] at he
    omega
  · refine ⟨fun _ => 0, ?_, fun _ _ => rfl⟩
    rw [haddr i hi]
    unfold Kernel.oneSpace
    simp only
    rw [if_neg (by omega), if_neg (by omega), if_pos (by omega)]

/-- The state without the structures that are linked by pointers. -/
def Kernel.emptyStore (k : Kernel) : Kernel := { k with store := fun _ => none }

/-- `k'` is `k` but for the contents of the tables that `f` leads to. -/
structure TablesOnly (f : ℕ → ℕ) (k k' : Kernel) : Prop where
  rest : k'.emptyStore = k.emptyStore
  store : ∀ a, (∀ i < 1024, a ≠ entryAddress (f i)) → k'.store a = k.store a
  table : ∀ i < 1024, ∀ g, k.store (entryAddress (f i)) = some (.table g) →
    ∃ g', k'.store (entryAddress (f i)) = some (.table g')

namespace TablesOnly

variable {f : ℕ → ℕ} {k k₁ k' : Kernel}

theorem refl : TablesOnly f k k := ⟨rfl, fun _ _ => rfl, fun _ _ g h => ⟨g, h⟩⟩

theorem trans (h : TablesOnly f k k₁) (h' : TablesOnly f k₁ k') : TablesOnly f k k' :=
  ⟨h'.rest.trans h.rest, fun a ha => (h'.store a ha).trans (h.store a ha), fun i hi g hg =>
    (h.table i hi g hg).elim fun _ hg' => h'.table i hi _ hg'⟩

theorem heapTable (h : TablesOnly f k k') : k'.heapTable = k.heapTable :=
  show k'.emptyStore.heapTable = k.emptyStore.heapTable by rw [h.rest]

theorem mem (h : TablesOnly f k k') : k'.mem = k.mem :=
  show k'.emptyStore.mem = k.emptyStore.mem by rw [h.rest]

theorem shortRun (h : TablesOnly f k k') : k'.shortRun = k.shortRun :=
  show k'.emptyStore.shortRun = k.emptyStore.shortRun by rw [h.rest]

theorem globals (h : TablesOnly f k k') : k'.globals = k.globals :=
  show k'.emptyStore.globals = k.emptyStore.globals by rw [h.rest]

theorem processes (h : TablesOnly f k k') : k'.processes = k.processes :=
  show k'.emptyStore.processes = k.emptyStore.processes by rw [h.rest]

end TablesOnly

/-! ## One page -/

/-- The entries with that of page `n` set to `v`. -/
def setPage (e : ℕ → ℕ) (n v : ℕ) : ℕ → ℕ := fun m => if m = n then v else e m

section Set

variable {k : Kernel} {c d virt v : ℕ} {f e : ℕ → ℕ} {r : Prop}

/-- A change to a table is a change to the pages of that table. -/
theorem Maps.put (h : Maps k c d f e) {i j : ℕ} (hi : i < 1024) (hj : j < 1024) {g : ℕ → ℕ}
    (hg : k.store (entryAddress (f i)) = some (.table g)) :
    Maps (k.put (entryAddress (f i)) (.table fun m => if m = j then v else g m)) c d f
        (setPage e (1024 * i + j) v) ∧
      TablesOnly f k (k.put (entryAddress (f i)) (.table fun m => if m = j then v else g m)) := by
  have hother : ∀ a o, k.store a = some o → (∀ g, o ≠ .table g) → a ≠ entryAddress (f i) := by
    rintro a o ha ho rfl
    rw [hg] at ha
    exact ho g (Option.some.inj ha).symm
  refine ⟨⟨h.chunk_ne, h.directory_ne, h.table_ne, h.inj, ?_, ?_, fun i' hi' => ?_⟩, rfl,
    fun a ha => ?_, fun i' hi' g' hg' => ?_⟩
  · rw [Kernel.put_store, if_neg (hother _ _ h.chunk (by simp)), h.chunk]
  · rw [Kernel.put_store, if_neg (hother _ _ h.directory (by simp)), h.directory]
  · obtain ⟨g', hg', he⟩ := h.table i' hi'
    by_cases hii : i' = i
    · subst hii
      rw [hg] at hg'
      cases hg'
      refine ⟨_, k.put_store_self _ _, fun j' hj' => ?_⟩
      unfold setPage
      by_cases hjj : j' = j
      · rw [if_pos hjj, if_pos (by omega)]
      · rw [if_neg hjj, if_neg (by omega), he j' hj']
    · refine ⟨g', ?_, fun j' hj' => ?_⟩
      · rw [Kernel.put_store, if_neg fun ha => hii (h.inj i' hi' i hi ha), hg']
      · rw [setPage, if_neg (by omega), he j' hj']
  · rw [Kernel.put_store, if_neg (ha i hi)]
  · rw [Kernel.put_store]
    split_ifs
    · exact ⟨_, rfl⟩
    · exact ⟨g', hg'⟩

/-- `paging_set` on an address that is not aligned fails. -/
theorem pagingSet_unaligned (hv : virt % 4096 ≠ 0) : pagingSet d virt v k = some (-EINVARG, k) := by
  simp [pagingSet, pagingIsAligned, hv, run_pure]

/-- `paging_set` sets the entry of one page. -/
theorem pagingSet_meets (h : Maps k c d f e) (hv : virt % 4096 = 0) (hlt : virt < 4294967296) :
    Meets r (pagingSet d virt v) k fun res k' => res = 0 ∧
      Maps k' c d f (setPage e (virt / 4096) v) ∧ TablesOnly f k k' := by
  have hi : virt / 4194304 < 1024 := by omega
  have hj : virt % 4194304 / 4096 < 1024 := by omega
  obtain ⟨g, hg, -⟩ := h.table _ hi
  have hput := h.put (v := v) hi hj hg
  rw [show 1024 * (virt / 4194304) + virt % 4194304 / 4096 = virt / 4096 by omega] at hput
  simp only [pagingSet, pagingGetIndexes, pagingIsAligned, hv, decide_true, Bool.not_true,
    Bool.false_eq_true, if_false, lt_irrefl, Meets.bind_iff, setTableEntry]
  rw [Kernel.getDirectory_meets h.directory_ne h.directory,
    Kernel.getTable_meets (h.table_ne _ hi) hg,
    Kernel.putObj_meets, if_neg (h.table_ne _ hi)]
  exact Meets.pure_iff.mpr ⟨rfl, hput⟩

/-- `paging_get` reads the entry of one page. -/
theorem pagingGet_meets {Q : ℕ → Kernel → Prop} (h : Maps k c d f e) (hv : virt % 4096 = 0)
    (hlt : virt < 4294967296) : Meets r (pagingGet d virt) k Q ↔ Q (e (virt / 4096)) k := by
  have hi : virt / 4194304 < 1024 := by omega
  have hj : virt % 4194304 / 4096 < 1024 := by omega
  obtain ⟨g, hg, he⟩ := h.table _ hi
  simp only [pagingGet, pagingGetIndexes, pagingIsAligned, hv, decide_true, Bool.not_true,
    Bool.false_eq_true, if_false, Meets.bind_iff]
  rw [Kernel.getDirectory_meets h.directory_ne h.directory,
    Kernel.getTable_meets (h.table_ne _ hi) hg,
    Meets.pure_iff]
  rw [show g (virt % (1024 * 4096) / 4096) = e (virt / 4096) by
    rw [show virt % (1024 * 4096) / 4096 = virt % 4194304 / 4096 from rfl, he _ hj]
    congr 1
    omega]

end Set

/-! ## A range of pages -/

/-- The entries after `count` rounds of the loop of `paging_map_range`. -/
def mapPages (e : ℕ → ℕ) : (virt phys count flags : ℕ) → ℕ → ℕ
  | _, _, 0, _ => e
  | virt, phys, count + 1, flags =>
    mapPages (setPage e (virt / 4096) (phys ||| flags)) ((virt + 4096) % 4294967296)
      ((phys + 4096) % 4294967296) count flags

/-- The page number that the loop reaches after `m` rounds from `virt`. -/
def pageAfter (virt m : ℕ) : ℕ := (virt / 4096 + m) % pageCount

theorem pageAfter_zero {virt : ℕ} (h : virt < 4294967296) : pageAfter virt 0 = virt / 4096 := by
  unfold pageAfter pageCount
  omega

theorem pageAfter_succ {virt m : ℕ} :
    pageAfter ((virt + 4096) % 4294967296) m = pageAfter virt (m + 1) := by
  unfold pageAfter pageCount
  omega

/-- A page that the loop does not reach keeps its entry. -/
theorem mapPages_of_not_reached : ∀ {count virt phys flags n : ℕ} {e : ℕ → ℕ}, virt < 4294967296 →
    (∀ m < count, n ≠ pageAfter virt m) → mapPages e virt phys count flags n = e n
  | 0, _, _, _, _, _, _, _ => rfl
  | count + 1, virt, phys, flags, n, e, hv, hn => by
    rw [mapPages, mapPages_of_not_reached (Nat.mod_lt _ (by decide)) fun m hm => ?_,
      setPage, if_neg]
    · have := hn 0 (Nat.succ_pos _)
      rwa [pageAfter_zero hv] at this
    · rw [pageAfter_succ]
      exact hn (m + 1) (Nat.succ_lt_succ hm)

/-- The page that the loop reaches in round `m`. -/
theorem mapPages_reached : ∀ {count virt phys flags m : ℕ} {e : ℕ → ℕ}, virt < 4294967296 →
    phys < 4294967296 → count ≤ pageCount → m < count →
    mapPages e virt phys count flags (pageAfter virt m) = (phys + 4096 * m) % 4294967296 ||| flags
  | count + 1, virt, phys, flags, m, e, hv, hp, hc, hm => by
    rw [mapPages]
    rcases m with _ | m
    · have hnot : ∀ m' < count, pageAfter virt 0 ≠ pageAfter ((virt + 4096) % 4294967296) m' := by
        intro m' hm'
        rw [pageAfter_succ]
        unfold pageAfter
        unfold pageCount at hc ⊢
        omega
      have hnext : (virt + 4096) % 4294967296 < 4294967296 := Nat.mod_lt _ (by decide)
      have hphys : (phys + 4096 * 0) % 4294967296 = phys := Nat.mod_eq_of_lt hp
      refine (mapPages_of_not_reached hnext hnot).trans ?_
      rw [hphys, pageAfter_zero hv]
      exact if_pos rfl
    · have hphys : ((phys + 4096) % 4294967296 + 4096 * m) % 4294967296 =
          (phys + 4096 * (m + 1)) % 4294967296 := by omega
      rw [← pageAfter_succ, ← hphys]
      exact mapPages_reached (Nat.mod_lt _ (by decide)) (Nat.mod_lt _ (by decide)) (by omega)
        (by omega)

/-- The entry of a page afterwards is the one before, or that of a round that reached it. -/
theorem mapPages_cases {count virt phys flags n : ℕ} {e : ℕ → ℕ} (hv : virt < 4294967296)
    (hp : phys < 4294967296) (hc : count ≤ pageCount) :
    ((∀ m < count, n ≠ pageAfter virt m) ∧ mapPages e virt phys count flags n = e n) ∨
      ∃ m < count, n = pageAfter virt m ∧
        mapPages e virt phys count flags n = (phys + 4096 * m) % 4294967296 ||| flags := by
  by_cases h : ∃ m < count, n = pageAfter virt m
  · obtain ⟨m, hm, rfl⟩ := h
    exact .inr ⟨m, hm, rfl, mapPages_reached hv hp hc hm⟩
  · push Not at h
    exact .inl ⟨h, mapPages_of_not_reached hv h⟩

section Range

variable {c d : ℕ} {f : ℕ → ℕ} {r : Prop}

/-- `paging_map_range` on aligned addresses does not fail. -/
theorem pagingMapRange_meets : ∀ {count virt phys flags : ℕ} {k : Kernel} {e : ℕ → ℕ},
    Maps k c d f e → virt % 4096 = 0 → phys % 4096 = 0 → virt < 4294967296 →
    Meets r (pagingMapRange c virt phys count flags) k fun res k' => res = 0 ∧
      Maps k' c d f (mapPages e virt phys count flags) ∧ TablesOnly f k k'
  | 0, _, _, _, _, _, h, _, _, _ => Meets.pure_iff.mpr ⟨rfl, h, .refl⟩
  | count + 1, virt, phys, flags, k, e, h, hv, hp, hlt => by
    simp only [pagingMapRange, pagingMap, hv, hp, ne_eq, not_true_eq_false, decide_false,
      Bool.or_self, Bool.false_eq_true, if_false, Meets.bind_iff]
    rw [Kernel.getChunk_meets h.chunk_ne h.chunk]
    refine (pagingSet_meets h hv hlt).mono ?_
    rintro _ k₁ ⟨rfl, h₁, ht₁⟩
    rw [if_neg (lt_irrefl 0)]
    refine (pagingMapRange_meets h₁ (by omega) (by omega) (Nat.mod_lt _ (by decide))).mono ?_
    rintro _ k₂ ⟨rfl, h₂, ht₂⟩
    exact ⟨rfl, h₂, ht₁.trans ht₂⟩

/-- The addresses that `paging_map_to` accepts. -/
structure MapToValid (virt phys physEnd : ℕ) : Prop where
  virt_mod : virt % 4096 = 0
  phys_mod : phys % 4096 = 0
  end_mod : physEnd % 4096 = 0
  le : phys ≤ physEnd

/-- The entries after `paging_map_to`, if the addresses are valid. -/
def mapTo (e : ℕ → ℕ) (virt phys physEnd flags : ℕ) : ℕ → ℕ :=
  mapPages e virt phys ((physEnd - phys) / 4096) flags

/-- `paging_map_to` maps the range, or changes nothing. -/
theorem pagingMapTo_meets {virt phys physEnd flags : ℕ} {k : Kernel} {e : ℕ → ℕ}
    (h : Maps k c d f e) (hlt : virt < 4294967296) :
    Meets r (pagingMapTo c virt phys physEnd flags) k fun res k' =>
      (res = 0 ∧ MapToValid virt phys physEnd ∧ Maps k' c d f (mapTo e virt phys physEnd flags) ∧
        TablesOnly f k k') ∨
      (res < 0 ∧ ¬MapToValid virt phys physEnd ∧ k' = k) := by
  unfold pagingMapTo
  have hneg : -EINVARG < 0 := by decide
  split_ifs with h1 h2 h3 h4
  · exact Meets.pure_iff.mpr (.inr ⟨hneg, fun hv => h1 hv.virt_mod, rfl⟩)
  · exact Meets.pure_iff.mpr (.inr ⟨hneg, fun hv => h2 hv.phys_mod, rfl⟩)
  · exact Meets.pure_iff.mpr (.inr ⟨hneg, fun hv => h3 hv.end_mod, rfl⟩)
  · exact Meets.pure_iff.mpr (.inr ⟨hneg, fun hv => absurd hv.le (by omega), rfl⟩)
  · refine (pagingMapRange_meets h (not_not.mp h1) (not_not.mp h2) hlt).mono ?_
    rintro _ k' ⟨rfl, hm, ht⟩
    exact .inl ⟨rfl, ⟨not_not.mp h1, not_not.mp h2, not_not.mp h3, by omega⟩, hm, ht⟩

end Range

end Hyperion
