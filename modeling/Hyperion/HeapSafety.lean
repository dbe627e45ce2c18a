import Hyperion.HeapTable
import Hyperion.Lib.Trace
import Mathlib.Data.Set.Basic
import Mathlib.Data.List.Nodup

/-!
# Heap safety over runs

Runs of `heap_malloc` and `heap_free` from a heap that `heap_create` accepts. A call of
`heap_malloc` is safe (`MallocSafe`) if a pointer it returns owns exactly the blocks
asked for, free before and disjoint from every live allocation, and if it returns 0
and changes nothing when no run of free blocks is long enough.

The search answers the start of the last free run even when that run is too short,
so a request that no run serves is safe exactly when the last block of the table is
taken (`Served`). `heap_runs_safe_iff_served` : the safe runs are those all of whose
requests are served.
-/

namespace Hyperion

open FreeRun

/-! ## Addresses and block counts -/

/-- `⌈size / 4096⌉`. -/
def blockCount (size : ℕ) : ℕ := (size + 4095) / 4096

/-- The number of the block that holds the address `p`. -/
def blockIndex (h : Heap) (p : ℕ) : ℕ := asUnsigned ((p : Int) - h.saddr) / 4096

theorem blockIndex_heapBlockToAddress (h : Heap) {b : ℕ} (hb : b < 1048576) :
    blockIndex h (heapBlockToAddress h b) = b := by
  unfold blockIndex heapBlockToAddress asUnsigned
  omega

theorem heapAddressToBlock_heapBlockToAddress (h : Heap) {b : ℕ} (hb : b < 524288) :
    heapAddressToBlock h (heapBlockToAddress h b) = b := by
  have hoff : asUnsigned ((heapBlockToAddress h b : Int) - h.saddr) = b * 4096 := by
    unfold heapBlockToAddress asUnsigned
    omega
  unfold heapAddressToBlock
  rw [hoff, asSigned_of_lt (by omega)]
  push_cast
  rw [Int.tdiv_eq_ediv_of_nonneg (by omega)]
  omega

/-- The 32-bit rounding of `heap_malloc` is exact up to the last block of the address
space, and asks for no block at all above it. -/
theorem heapAlignValueToUpper_div (size : ℕ) (hsize : size < 4294967296) :
    heapAlignValueToUpper size / 4096 =
      if size ≤ 4294963200 then blockCount size else 0 := by
  unfold heapAlignValueToUpper blockCount
  split_ifs <;> omega

/-- A heap that `heap_create` accepts has fewer than `2 ^ 20` blocks, all of them free. -/
theorem heapCreate_ok {ptr end_ : ℕ} {table : HeapTable} {h : Heap}
    (hc : heapCreate ptr end_ table = .ok h) :
    h.saddr = ptr ∧ h.table.total = asUnsigned ((end_ : Int) - ptr) / 4096 := by
  unfold heapCreate at hc
  split_ifs at hc
  simp only at hc
  split_ifs at hc with hneg
  cases hc
  refine ⟨rfl, ?_⟩
  by_contra hne
  exact hneg (by simp [heapValidateTable, hne])

/-! ## One request -/

/-- The answers of `heap_malloc`, for a request of `blockCount size` blocks. -/
theorem heapMalloc_cases (h : Heap) {size : ℕ} (hpos : 1 ≤ size) (hsize : size < 4294967296)
    (hsmall : h.table.total < 1048576) :
    (∃ s : ℕ, FirstRun h.table.IsFree h.table.total (blockCount size) s ∧
      heapMalloc h size =
        (heapBlockToAddress h s, heapMarkBlocksTaken h s (blockCount size))) ∨
    (∃ (s : ℕ) (n : ℕ), ¬HasRun h.table.IsFree h.table.total (blockCount size) ∧
      LastRun h.table.IsFree h.table.total s ∧
      heapMalloc h size = (heapBlockToAddress h s, heapMarkBlocksTaken h s n)) ∨
    (¬HasRun h.table.IsFree h.table.total (blockCount size) ∧
      (h.table.total = 0 ∨ ¬h.table.IsFree (h.table.total - 1)) ∧
      heapMalloc h size = (0, h)) := by
  have hn := heapAlignValueToUpper_div size hsize
  unfold heapMalloc heapMallocBlocks
  simp only
  generalize hm : heapAlignValueToUpper size / 4096 = n at hn ⊢
  have hno : (0 < n → ¬HasRun h.table.IsFree h.table.total n) →
      ¬HasRun h.table.IsFree h.table.total (blockCount size) := by
    intro hnone
    split_ifs at hn with hle
    · rw [← hn]
      refine hnone ?_
      rw [hn, blockCount]
      omega
    · rintro ⟨s, hs, -⟩
      unfold blockCount at hs
      omega
  rcases heapGetStartBlock_cases h n with ⟨s, hs, hpos, hrun⟩ | ⟨s, hs, hnone, hlast⟩ |
    ⟨hs, hnone, hlast⟩
  · have hcount : n = blockCount size := by
      split_ifs at hn with hle
      · exact hn
      · omega
    refine .inl ⟨s, hcount ▸ hrun, ?_⟩
    rw [hs, if_neg (by omega), hcount]
  · refine .inr (.inl ⟨s, n, hno hnone, hlast, ?_⟩)
    rw [hs, if_neg (by omega)]
  · refine .inr (.inr ⟨hno hnone, hlast, ?_⟩)
    rw [hs, if_pos (by decide)]

/-! ## Runs -/

/-- A heap and the allocations returned and not yet freed, each with the size asked for. -/
structure HeapState where
  heap : Heap
  live : List (ℕ × ℕ)

inductive HeapCall
  | malloc (size : ℕ)
  | free (ptr : ℕ)

/-- Any 32-bit size from 1 on may be asked for, and any live pointer may be freed. -/
def HeapCall.Legal (s : HeapState) : HeapCall → Prop
  | malloc size => 1 ≤ size ∧ size < 4294967296
  | free ptr => ∃ size, (ptr, size) ∈ s.live

/-- The state after a call. -/
def heapCall (s : HeapState) : HeapCall → HeapState
  | .malloc size =>
    let r := heapMalloc s.heap size
    ⟨r.2, if r.1 = 0 then s.live else (r.1, size) :: s.live⟩
  | .free ptr => ⟨heapFree s.heap ptr, s.live.eraseP fun a => a.1 = ptr⟩

def HeapStep (s : HeapState) (c : HeapCall) (t : HeapState) : Prop :=
  c.Legal s ∧ t = heapCall s c

theorem HeapStep.malloc (s : HeapState) (size : ℕ) (h : 1 ≤ size ∧ size < 4294967296) :
    HeapStep s (.malloc size) (heapCall s (.malloc size)) := ⟨h, rfl⟩

/-- The blocks an allocation of `size` bytes at `p` is meant to own. -/
def ownedBlocks (h : Heap) (p size : ℕ) : Set ℕ :=
  {i | blockIndex h p ≤ i ∧ i < blockIndex h p + blockCount size}

/-- What `heap_malloc` promises in the state `s`. -/
structure MallocSafe (s : HeapState) (size : ℕ) : Prop where
  start : (heapMalloc s.heap size).1 ≠ 0 → (heapMalloc s.heap size).1 =
    heapBlockToAddress s.heap (blockIndex s.heap (heapMalloc s.heap size).1)
  inside : (heapMalloc s.heap size).1 ≠ 0 →
    ∀ i ∈ ownedBlocks s.heap (heapMalloc s.heap size).1 size, i < s.heap.table.total
  wasFree : (heapMalloc s.heap size).1 ≠ 0 →
    ∀ i ∈ ownedBlocks s.heap (heapMalloc s.heap size).1 size, s.heap.table.IsFree i
  taken : (heapMalloc s.heap size).1 ≠ 0 →
    ∀ i ∈ ownedBlocks s.heap (heapMalloc s.heap size).1 size,
      ¬(heapMalloc s.heap size).2.table.IsFree i
  apart : (heapMalloc s.heap size).1 ≠ 0 → ∀ a ∈ s.live,
    ownedBlocks s.heap (heapMalloc s.heap size).1 size ∩ ownedBlocks s.heap a.1 a.2 = ∅
  noRun : ¬HasRun s.heap.table.IsFree s.heap.table.total (blockCount size) →
    (heapMalloc s.heap size).1 = 0 ∧
      (heapMalloc s.heap size).2.table.entries = s.heap.table.entries

/-- The promise at one step of a run. -/
def HeapStepSafe (s : HeapState) : HeapCall → Prop
  | .malloc size => MallocSafe s size
  | .free _ => True

/-- A run of `n` free blocks exists, or the last block of the table is taken. -/
def Served (t : HeapTable) (n : ℕ) : Prop :=
  HasRun t.IsFree t.total n ∨ t.total = 0 ∨ ¬t.IsFree (t.total - 1)

/-- The condition on one step : a request is served, and the offset of a freed pointer
in the pool is not negative when read as an `int`. -/
def HeapStepServed (s : HeapState) : HeapCall → Prop
  | .malloc size => Served s.heap.table (blockCount size)
  | .free ptr => asUnsigned ((ptr : Int) - s.heap.saddr) < 2147483648

/-- Every live allocation holds its blocks, and no pointer is live twice. -/
structure HeapInv (s : HeapState) : Prop where
  small : s.heap.table.total < 1048576
  owned : ∀ a ∈ s.live, ∃ b : ℕ, a.1 = heapBlockToAddress s.heap b ∧
    Held s.heap.table b (blockCount a.2) ∧ b + blockCount a.2 ≤ s.heap.table.total
  nodup : (s.live.map Prod.fst).Nodup

namespace HeapInv

variable {s : HeapState}

/-- A safe answer of `heap_malloc` that serves the request from a free run. -/
theorem mallocSafe_of_run (hi : HeapInv s) {size b : ℕ} (hpos : 1 ≤ size)
    (hrun : FirstRun s.heap.table.IsFree s.heap.table.total (blockCount size) b)
    (he : heapMalloc s.heap size =
      (heapBlockToAddress s.heap b, heapMarkBlocksTaken s.heap b (blockCount size))) :
    MallocSafe s size := by
  have hcount : 0 < blockCount size := by unfold blockCount; omega
  have hin := hrun.inside
  have hidx : blockIndex s.heap (heapMalloc s.heap size).1 = b := by
    rw [he]
    exact blockIndex_heapBlockToAddress _ (by have := hi.small; omega)
  have hmem : ∀ i, i ∈ ownedBlocks s.heap (heapMalloc s.heap size).1 size ↔
      b ≤ i ∧ i < b + blockCount size := fun i => by simp [ownedBlocks, hidx]
  refine ⟨fun _ => by rw [hidx, he], fun _ i h => ?_, fun _ i h => ?_, fun _ i h => ?_,
    fun _ a ha => ?_, fun hno => absurd hrun.hasRun hno⟩
  · have := (hmem i).mp h
    omega
  · exact hrun.run i ((hmem i).mp h).1 ((hmem i).mp h).2
  · rw [he]
    have := (hmem i).mp h
    exact (heapMarkBlocksTaken_held s.heap (by omega) hcount).not_isFree this.1 this.2
      (by rw [heapMarkBlocksTaken_total]; omega)
  · obtain ⟨c, hc, hheld, hcin⟩ := hi.owned a ha
    have hidx' : blockIndex s.heap a.1 = c := by
      rw [hc]
      exact blockIndex_heapBlockToAddress _ (by have := hi.small; have := hheld.pos; omega)
    ext i
    simp only [Set.mem_inter_iff, Set.mem_empty_iff_false, iff_false, not_and]
    rintro h ⟨h1, h2⟩
    rw [hidx'] at h1 h2
    -- a block of a live allocation is not free
    exact hheld.not_isFree h1 h2 (by omega) (hrun.run i ((hmem i).mp h).1 ((hmem i).mp h).2)

/-- A request is safe when nothing is returned and nothing changes. -/
theorem mallocSafe_of_full {size : ℕ}
    (he : heapMalloc s.heap size = (0, s.heap)) : MallocSafe s size := by
  have h0 : ∀ {p : Prop}, (heapMalloc s.heap size).1 ≠ 0 → p := fun h => absurd (by rw [he]) h
  exact ⟨h0, h0, h0, h0, h0, fun _ => by rw [he]; exact ⟨rfl, rfl⟩⟩

theorem malloc_served (hi : HeapInv s) {size : ℕ} (hpos : 1 ≤ size) (hsize : size < 4294967296)
    (hs : Served s.heap.table (blockCount size)) :
    MallocSafe s size ∧ HeapInv (heapCall s (.malloc size)) := by
  rcases heapMalloc_cases s.heap hpos hsize hi.small with ⟨b, hrun, he⟩ | ⟨b, n, hno, hlast, he⟩ |
    ⟨-, -, he⟩
  · refine ⟨hi.mallocSafe_of_run hpos hrun he, ?_⟩
    have hcount : 0 < blockCount size := by unfold blockCount; omega
    have hin := hrun.inside
    have hold : ∀ a ∈ s.live, ∃ c : ℕ, a.1 = heapBlockToAddress s.heap c ∧
        Held (heapMarkBlocksTaken s.heap b (blockCount size)).table c (blockCount a.2) ∧
        c + blockCount a.2 ≤ s.heap.table.total ∧ c ≠ b := by
      intro a ha
      obtain ⟨c, hc, hheld, hcin⟩ := hi.owned a ha
      have hdisj : b + blockCount size ≤ c ∨ c + blockCount a.2 ≤ b := by
        by_contra hcon
        have := hheld.pos
        exact hheld.not_isFree (i := max b c) (by omega) (by omega) (by omega)
          (hrun.run _ (by omega) (by omega))
      exact ⟨c, hc, hheld.mark_other hdisj, hcin, by have := hheld.pos; omega⟩
    refine ⟨by simpa [heapCall, he] using hi.small, ?_, ?_⟩
    · simp only [heapCall, he, heapMarkBlocksTaken_total]
      split_ifs with h0
      · intro a ha
        obtain ⟨c, hc, hheld, hcin, -⟩ := hold a ha
        exact ⟨c, hc, hheld, hcin⟩
      · rintro a ha
        rcases List.mem_cons.mp ha with rfl | ha
        · exact ⟨b, rfl, heapMarkBlocksTaken_held _ (by omega) hcount, hin⟩
        · obtain ⟨c, hc, hheld, hcin, -⟩ := hold a ha
          exact ⟨c, hc, hheld, hcin⟩
    · simp only [heapCall, he]
      split_ifs with h0
      · exact hi.nodup
      · refine List.nodup_cons.mpr ⟨fun hmem => ?_, hi.nodup⟩
        obtain ⟨a, ha, hab⟩ := List.mem_map.mp hmem
        obtain ⟨c, hc, hheld, hcin, hne⟩ := hold a ha
        have := hheld.pos
        have hsmall := hi.small
        apply hne
        rw [← blockIndex_heapBlockToAddress s.heap (b := c) (by omega),
          ← blockIndex_heapBlockToAddress s.heap (b := b) (by omega), ← hc, hab]
  · rcases hs with h | h | h
    · exact absurd h hno
    · exact absurd hlast.lt (by omega)
    · exact absurd (hlast.run _ (by have := hlast.lt; omega) (by have := hlast.lt; omega)) h
  · refine ⟨mallocSafe_of_full he, ?_⟩
    simpa [heapCall, he] using hi

theorem free_low (hi : HeapInv s) {ptr : ℕ} (hl : ∃ size, (ptr, size) ∈ s.live)
    (hlow : asUnsigned ((ptr : Int) - s.heap.saddr) < 2147483648) :
    HeapInv (heapCall s (.free ptr)) := by
  obtain ⟨size, hmem⟩ := hl
  obtain ⟨b, hb, hheld, hin⟩ := hi.owned _ hmem
  have hsmall := hi.small
  have hpos := hheld.pos
  simp only at hb
  have hbs : b < 524288 := by
    have h1 := blockIndex_heapBlockToAddress s.heap (b := b) (by omega)
    rw [← hb, blockIndex] at h1
    omega
  have hfree : heapFree s.heap ptr = heapMarkBlocksFree s.heap b := by
    rw [heapFree, hb, heapAddressToBlock_heapBlockToAddress _ hbs]
  have hsub : ∀ a ∈ s.live.eraseP (fun a => a.1 = ptr), a ∈ s.live ∧ a.1 ≠ ptr := by
    intro a ha
    refine ⟨List.mem_of_mem_eraseP ha, ?_⟩
    obtain ⟨x, l₁, l₂, -, hx, hl, he⟩ :=
      List.exists_of_eraseP (p := fun a : ℕ × ℕ => a.1 = ptr) hmem (by simp)
    have hnd := hi.nodup
    rw [hl, List.map_append, List.map_cons, List.nodup_middle, List.nodup_cons] at hnd
    rw [he] at ha
    rintro rfl
    refine hnd.1 (List.mem_append.mpr ?_)
    rw [of_decide_eq_true hx]
    rcases List.mem_append.mp ha with h | h
    · exact .inl (List.mem_map_of_mem h)
    · exact .inr (List.mem_map_of_mem h)
  refine ⟨by simpa [heapCall, hfree] using hsmall, fun a ha => ?_,
    hi.nodup.sublist (List.eraseP_sublist.map _)⟩
  obtain ⟨ha, hne⟩ := hsub a ha
  obtain ⟨c, hc, hheld', hcin⟩ := hi.owned a ha
  refine ⟨c, by simpa [heapCall, hfree, heapBlockToAddress] using hc, ?_,
    by simpa [heapCall, hfree] using hcin⟩
  have hcb : c ≠ b := by
    rintro rfl
    exact hne (hc.trans hb.symm)
  simpa [heapCall, hfree] using hheld.free_other hheld' hcb

/-- A served step is safe and keeps the invariant. -/
theorem step (hi : HeapInv s) {c : HeapCall} {t : HeapState} (hstep : HeapStep s c t)
    (hs : HeapStepServed s c) : HeapStepSafe s c ∧ HeapInv t := by
  obtain ⟨hlegal, rfl⟩ := hstep
  cases c with
  | malloc size => exact hi.malloc_served hlegal.1 hlegal.2 hs
  | free ptr => exact ⟨trivial, hi.free_low hlegal hs⟩

end HeapInv

/-! ## Pools that do not contain the null address -/

/-- The pool of `h` starts above address 0 and ends inside the first 2 GB above it. -/
structure PoolAboveNull (h : Heap) : Prop where
  pos : 0 < h.saddr
  fits : h.saddr + h.table.total * 4096 ≤ 4294967296
  low : h.table.total ≤ 524288

theorem PoolAboveNull.heapBlockToAddress_ne_zero {h : Heap} (hp : PoolAboveNull h) {b : ℕ}
    (hb : b < h.table.total) : heapBlockToAddress h b ≠ 0 := by
  have := hp.pos
  have := hp.fits
  unfold heapBlockToAddress asUnsigned
  omega

/-- In such a pool an unserved request gets the start of the last free run, which is
too short. -/
theorem not_mallocSafe_of_not_served {s : HeapState} (hp : PoolAboveNull s.heap) {size : ℕ}
    (hpos : 1 ≤ size) (hsize : size < 4294967296)
    (hs : ¬Served s.heap.table (blockCount size)) : ¬MallocSafe s size := by
  intro hsafe
  have hsmall : s.heap.table.total < 1048576 := by
    have := hp.low
    omega
  rcases heapMalloc_cases s.heap hpos hsize hsmall with ⟨b, hrun, he⟩ | ⟨b, n, hno, hlast, he⟩ |
    ⟨hno, hlast, he⟩
  · exact hs (.inl hrun.hasRun)
  · have h0 := (hsafe.noRun hno).1
    rw [he] at h0
    exact hp.heapBlockToAddress_ne_zero hlast.lt h0
  · exact hs (.inr hlast)

/-- In such a pool live pointers lie less than 2 GB above the start. -/
theorem HeapInv.low {s : HeapState} (hi : HeapInv s) (hp : PoolAboveNull s.heap) {ptr size : ℕ}
    (hl : (ptr, size) ∈ s.live) : asUnsigned ((ptr : Int) - s.heap.saddr) < 2147483648 := by
  obtain ⟨b, hb, hheld, hin⟩ := hi.owned _ hl
  simp only at hb
  have := hheld.pos
  have := hp.low
  rw [hb]
  unfold heapBlockToAddress asUnsigned
  omega

theorem PoolAboveNull.heapCall {s : HeapState} (hp : PoolAboveNull s.heap) (c : HeapCall) :
    PoolAboveNull (heapCall s c).heap := by
  cases c with
  | malloc size =>
    unfold Hyperion.heapCall heapMalloc heapMallocBlocks
    simp only
    split_ifs
    · exact hp
    · exact ⟨hp.pos, by simpa using hp.fits, by simpa using hp.low⟩
  | free ptr => exact ⟨hp.pos, by simpa [Hyperion.heapCall, heapFree] using hp.fits,
      by simpa [Hyperion.heapCall, heapFree] using hp.low⟩

/-! ## The runs that are safe -/

theorem heapCreate_inv {ptr end_ : ℕ} {table : HeapTable} {h : Heap}
    (hc : heapCreate ptr end_ table = .ok h) : HeapInv ⟨h, []⟩ := by
  obtain ⟨-, htotal⟩ := heapCreate_ok hc
  refine ⟨?_, by simp, by simp⟩
  have := asUnsigned_lt ((end_ : Int) - ptr)
  simp only [htotal]
  omega

/-- A run from a heap that `heap_create` accepts is safe if every request is served and
no freed pointer lies 2 GB or more above the start of the pool. When the pool is at
most 2 GB long and lies above address 0, only these runs are safe. -/
theorem heap_runs_safe_iff_served {ptr end_ : ℕ} {table : HeapTable} {h : Heap}
    (hc : heapCreate ptr end_ table = .ok h) {tr : List (HeapState × HeapCall × HeapState)}
    {u : HeapState} (ht : Trace HeapStep ⟨h, []⟩ tr u) :
    ((∀ x ∈ tr, HeapStepServed x.1 x.2.1) → ∀ x ∈ tr, HeapStepSafe x.1 x.2.1) ∧
    (0 < ptr → ptr ≤ end_ → end_ < 4294967296 → end_ - ptr ≤ 2147483648 →
      ((∀ x ∈ tr, HeapStepSafe x.1 x.2.1) ↔ ∀ x ∈ tr, HeapStepServed x.1 x.2.1)) := by
  have h0 := heapCreate_inv hc
  constructor
  · intro hs x hx
    have hinv := (ht.invariant (I := HeapInv) (C := fun s c _ => HeapStepServed s c) h0
      (fun s c t hst hC hI => (hI.step hst hC).2) hs).1 x hx
    exact (hinv.1.step (ht.step_of_mem x hx) (hs x hx)).1
  · intro hpos hle hend hlen
    obtain ⟨hsaddr, htotal⟩ := heapCreate_ok hc
    have hpool : PoolAboveNull h := by
      refine ⟨by omega, ?_, ?_⟩ <;> rw [htotal] <;> unfold asUnsigned <;> omega
    refine ht.forall_iff (I := fun s => HeapInv s ∧ PoolAboveNull s.heap)
      (P := fun s c _ => HeapStepSafe s c) (C := fun s c _ => HeapStepServed s c) ⟨h0, hpool⟩ ?_ ?_
    · rintro s c t hst hC ⟨hI, hP⟩
      exact ⟨(hI.step hst hC).2, hst.2 ▸ hP.heapCall c⟩
    · rintro s c t hst ⟨hI, hP⟩
      refine ⟨fun hsafe => ?_, fun hC => (hI.step hst hC).1⟩
      cases c with
      | malloc size =>
        by_contra hns
        exact not_mallocSafe_of_not_served hP hst.1.1 hst.1.2 hns hsafe
      | free ptr =>
        obtain ⟨size, hl⟩ := hst.1
        exact hI.low hP hl

/-- A fresh pool of one block at `HARDIKHYPERIONOS_HEAP_ADDRESS`. -/
def oneBlockHeap : Heap := ⟨⟨fun i => if 0 ≤ i ∧ i < 1 then blockFree else 0, 1⟩, heapAddress⟩

theorem oneBlockHeap_created :
    heapCreate heapAddress (heapAddress + 4096) ⟨fun _ => 0, 1⟩ = .ok oneBlockHeap := rfl

/-- A fresh pool of four blocks. -/
def fourBlockHeap : Heap := ⟨⟨fun i => if 0 ≤ i ∧ i < 4 then blockFree else 0, 4⟩, heapAddress⟩

theorem fourBlockHeap_created :
    heapCreate heapAddress (heapAddress + 16384) ⟨fun _ => 0, 4⟩ = .ok fourBlockHeap := rfl

/-- The state of this pool after two requests, of two blocks and of one. -/
def twoServed : HeapState :=
  heapCall (heapCall ⟨fourBlockHeap, []⟩ (.malloc 5000)) (.malloc 4096)

/-- Two requests, the first of which is taken back for a third one. -/
def servedRun : List (HeapState × HeapCall × HeapState) :=
  let s₁ := heapCall ⟨fourBlockHeap, []⟩ (.malloc 5000)
  let s₃ := heapCall twoServed (.free heapAddress)
  [(⟨fourBlockHeap, []⟩, .malloc 5000, s₁), (s₁, .malloc 4096, twoServed),
    (twoServed, .free heapAddress, s₃), (s₃, .malloc 8192, heapCall s₃ (.malloc 8192))]

theorem servedRun_trace : ∃ u, Trace HeapStep ⟨fourBlockHeap, []⟩ servedRun u := by
  refine ⟨_, .cons (.malloc _ 5000 (by decide)) (.cons (.malloc _ 4096 (by decide))
    (.cons ⟨⟨5000, ?_⟩, rfl⟩ (.cons (.malloc _ 8192 (by decide)) (.nil _))))⟩
  decide

/-- Every request of the run is served, and so safe. -/
theorem fourBlockHeap_run_safe : ∃ u, Trace HeapStep ⟨fourBlockHeap, []⟩ servedRun u ∧
    ∀ x ∈ servedRun, HeapStepSafe x.1 x.2.1 := by
  obtain ⟨u, htrace⟩ := servedRun_trace
  refine ⟨u, htrace, (heap_runs_safe_iff_served fourBlockHeap_created htrace).1 fun x hx => ?_⟩
  have hserved {t : HeapTable} {s n : ℕ} (hn : s + n ≤ t.total)
      (hfree : ∀ j < n, t.IsFree (s + j : ℕ)) : Served t n := by
    refine .inl ⟨s, hn, fun i hi hi' => ?_⟩
    have := hfree (i - s) (by omega)
    rwa [Nat.add_sub_cancel' hi] at this
  simp only [servedRun, List.mem_cons, List.not_mem_nil, or_false] at hx
  rcases hx with rfl | rfl | rfl | rfl
  · exact hserved (s := 0) (by decide) (by decide)
  · exact hserved (s := 2) (by decide) (by decide)
  · exact show asUnsigned ((heapAddress : Int) - twoServed.heap.saddr) < 2147483648 by decide
  · exact hserved (s := 0) (by decide) (by decide)

/-- Two blocks are asked for of a pool of one : the address of that block is returned. -/
theorem heap_runs_not_all_safe :
    ¬∀ (ptr end_ : ℕ) (table : HeapTable) (h : Heap), heapCreate ptr end_ table = .ok h →
      ∀ (tr : List (HeapState × HeapCall × HeapState)) (u : HeapState),
        Trace HeapStep ⟨h, []⟩ tr u → ∀ x ∈ tr, HeapStepSafe x.1 x.2.1 := by
  intro hall
  have hsafe := hall _ _ _ _ oneBlockHeap_created _ _
    (.cons (.malloc ⟨oneBlockHeap, []⟩ 8192 (by decide)) (.nil _)) _ (List.mem_singleton.mpr rfl)
  have hno : ¬HasRun oneBlockHeap.table.IsFree oneBlockHeap.table.total (blockCount 8192) :=
    fun ⟨s, hs, _⟩ => by simp [oneBlockHeap, blockCount] at hs
  have := (MallocSafe.noRun hsafe hno).1
  revert this
  decide

end Hyperion
