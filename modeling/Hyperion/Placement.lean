import Hyperion.ProcessHeap

/-!
# Where first fit puts what is allocated

The allocator answers the first run of free blocks that is long enough, so that which blocks are
free decides where everything goes. `Kernel.FreeBelow k M S` says that the free blocks below `M`
are those of `S`, and `Kernel.FreeBelow.kzalloc_run` which block is answered then : the first one
from which on enough of `S` follow.

Mostly the blocks are taken one after the other from a long run. `Kernel.Row k M T y w z` is the
state in which a run that begins at `y` and reaches at least to `z` has been taken up to `w`, and
nothing before it is free. The next allocation is answered `w` (`Kernel.Row.kzalloc`).

`Kernel.Gone B k k'` is the other direction : `k'` is `k` with the allocations of `B` given back,
and everything else as it was. It composes (`Kernel.Gone.trans`), and an address space is given
back by its pointers (`Kernel.withoutSpace_gone`).
-/

namespace Hyperion

open Partial FreeRun

variable {k k' k₁ : Kernel} {b c d m n size x y w z M : ℕ} {S T : ℕ → Prop} {f : ℕ → ℕ}
  {B B' : ℕ → ℕ → Prop}

/-! ## What is free -/

/-- Different blocks begin at different addresses. -/
theorem blockAddr_ne (h : m ≠ n) : blockAddr m ≠ blockAddr n := fun he => h (blockAddr_inj.mp he)

/-- The blocks below `M` that are free are those of `S`. -/
def Kernel.FreeBelow (k : Kernel) (M : ℕ) (S : ℕ → Prop) : Prop :=
  M ≤ heapTotalBlocks ∧ ∀ i < M, k.table.IsFree i ↔ S i

namespace Kernel.FreeBelow

/-- The same blocks. -/
theorem congr (h : k.FreeBelow M S) (hS : ∀ i < M, S i ↔ T i) : k.FreeBelow M T :=
  ⟨h.1, fun i hi => (h.2 i hi).trans (hS i hi)⟩

/-- The heap table decides. -/
theorem of_heapTable (h : k.FreeBelow M S) (ht : k'.heapTable = k.heapTable) :
    k'.FreeBelow M S :=
  ⟨h.1, fun i hi => (show k'.table.IsFree i ↔ k.table.IsFree i by
    unfold HeapTable.IsFree table heap; rw [ht]).trans (h.2 i hi)⟩

/-- First fit : the first run of blocks of `S` that is long enough. -/
theorem kzalloc_run (h : k.FreeBelow M S) (size x : ℕ) (hpos : 1 ≤ size)
    (hin : x + blocksFor size ≤ M)
    (hrun : ∀ i, x ≤ i → i < x + blocksFor size → S i)
    (hfirst : ∀ j < x, ∃ i, j ≤ i ∧ i < j + blocksFor size ∧ ¬S i) :
    k.Answers size x ∧ requestBlocks size = blocksFor size ∧
      kzalloc size k = some (blockAddr x, k.allocated x size) := by
  have hM := h.1
  have hn : 1 ≤ blocksFor size := by
    unfold blocksFor
    omega
  have hisRun : IsRun k.table.IsFree x (blocksFor size) := fun i hi hi' =>
    (h.2 i (by omega)).mpr (hrun i hi hi')
  obtain ⟨b, hb, hblocks, hk⟩ := Kernel.kzalloc_hasRun hpos ⟨x, by omega, hisRun⟩
  have hle := hb.le_of_isRun hisRun
  have hbx : b = x := by
    by_contra hne
    obtain ⟨i, hi, hi', hno⟩ := hfirst b (by omega)
    exact hno ((h.2 i (by omega)).mp (hb.run i hi hi'))
  subst hbx
  refine ⟨⟨by omega, hisRun b le_rfl (by omega), fun i hi hi' _ => hisRun i hi (hblocks ▸ hi'), ?_⟩,
    hblocks, hk⟩
  unfold blockAddr heapAddress
  unfold blocksFor heapTotalBlocks at *
  omega

/-- What is free after an allocation. -/
theorem allocated (h : k.FreeBelow M S) (hn : requestBlocks size = n) :
    (k.allocated x size).FreeBelow M fun i => S i ∧ ¬(x ≤ i ∧ i < x + n) :=
  ⟨h.1, fun i hi => by rw [allocated_isFree, h.2 i hi, hn]⟩

/-- What is free after an allocation is given back. -/
theorem release (h : k.FreeBelow M S) (ho : k.Owns (blockAddr b) n) :
    (k.release (blockAddr b)).FreeBelow M fun i => S i ∨ b ≤ i ∧ i < b + n := by
  obtain ⟨c, hc, hheld⟩ := ho
  obtain rfl := blockAddr_inj.mp hc
  refine ⟨h.1, fun i hi => ?_⟩
  show _ ↔ S i ∨ b ≤ i ∧ i < b + n
  rw [← h.2 i hi, release_table, heapAddressToBlock_blockAddr k hheld.lt]
  have hM := h.1
  unfold HeapTable.IsFree
  rw [heapMarkBlocksFree_held hheld]
  split_ifs with hin
  · exact iff_of_true rfl (.inr (by omega))
  · refine ⟨.inl, fun hor => hor.resolve_right fun hin' => hin ⟨by omega, by omega, ?_⟩⟩
    show (i : Int) < heapTotalBlocks
    omega

end Kernel.FreeBelow

/-- The free blocks are those of `T` from `w` on. Of these all below `z` are there. -/
structure Kernel.Row (k : Kernel) (M : ℕ) (T : ℕ → Prop) (y w z : ℕ) : Prop where
  free : k.FreeBelow M fun i => T i ∧ ¬(y ≤ i ∧ i < w)
  le : y ≤ w
  taken : ∀ i < y, ¬T i
  run : ∀ i, y ≤ i → i < z → T i
  inside : z ≤ M

namespace Kernel.Row

theorem of_heapTable (h : k.Row M T y w z) (ht : k'.heapTable = k.heapTable) :
    k'.Row M T y w z := ⟨h.free.of_heapTable ht, h.le, h.taken, h.run, h.inside⟩

/-- The next blocks of the row are answered. -/
theorem kzalloc (h : k.Row M T y w z) (size w' : ℕ) (hpos : 1 ≤ size)
    (hn : w + blocksFor size = w') (hz : w' ≤ z) : k.Answers size w ∧
      requestBlocks size = blocksFor size ∧
      Hyperion.kzalloc size k = some (blockAddr w, k.allocated w size) ∧
      (k.allocated w size).Row M T y w' z := by
  have hle := h.le
  have hin := h.inside
  subst hn
  obtain ⟨ha, hblocks, hk⟩ := h.free.kzalloc_run size w hpos (show w + _ ≤ M by omega)
    (fun i hi hi' => ⟨h.run i (by omega) (by omega), by omega⟩) fun j hj => ⟨j, le_rfl, by
      unfold blocksFor
      omega, fun hf => by
        by_cases hjy : j < y
        · exact h.taken j hjy hf.1
        · exact hf.2 ⟨by omega, hj⟩⟩
  refine ⟨ha, hblocks, hk, (h.free.allocated hblocks).congr fun i _ => ?_, by omega, h.taken, h.run,
    hin⟩
  constructor
  · rintro ⟨⟨hT, hno⟩, hno'⟩
    exact ⟨hT, by omega⟩
  · rintro ⟨hT, hno⟩
    exact ⟨⟨hT, by omega⟩, by omega⟩

/-- What comes of that. -/
theorem takes (h : k.Row M T y w z) (size w' : ℕ) (hpos : 1 ≤ size)
    (hn : w + blocksFor size = w') (hz : w' ≤ z) : ∃ k',
      Hyperion.kzalloc size k = some (blockAddr w, k') ∧ k'.Row M T y w' z ∧
        k'.globals = k.globals ∧ k'.Owns (blockAddr w) (blocksFor size) ∧
        ∀ a n, k.Owns a n → k'.Owns a n := by
  obtain ⟨ha, hblocks, hrun, hrow⟩ := h.kzalloc size w' hpos hn hz
  exact ⟨_, hrun, hrow, k.allocated_globals w size, hblocks ▸ ha.owns hpos,
    fun _ _ ho => ha.ext.owns ho⟩

/-- What was taken last is given back. -/
theorem release (h : k.Row M T y w z) (ho : k.Owns (blockAddr x) n) (hx : y ≤ x)
    (hn : x + n = w) (hz : w ≤ z) : (k.release (blockAddr x)).Row M T y x z := by
  refine ⟨(h.free.release ho).congr fun i _ => ?_, hx, h.taken, h.run, h.inside⟩
  constructor
  · rintro (⟨hT, hno⟩ | hin)
    · exact ⟨hT, by omega⟩
    · exact ⟨h.run i (by omega) (by omega), by omega⟩
  · rintro ⟨hT, hno⟩
    by_cases hi : x ≤ i ∧ i < x + n
    · exact .inr hi
    · exact .inl ⟨hT, by omega⟩

end Kernel.Row

/-! ## What is given back -/

/-- `k'` is `k` with the allocations of `B` free, each a block and a number of blocks. -/
structure Kernel.Gone (B : ℕ → ℕ → Prop) (k k' : Kernel) : Prop where
  free : ∀ i < heapTotalBlocks, k'.table.IsFree i ↔
    k.table.IsFree i ∨ ∃ b n, B b n ∧ b ≤ i ∧ i < b + n
  owns : ∀ b n, k.Owns (blockAddr b) n → (∀ m, ¬B b m) → k'.Owns (blockAddr b) n
  store : ∀ a, a ≠ 0 → (∀ b m, B b m → a ≠ blockAddr b) → k'.store a = k.store a
  gone : ∀ b m, B b m → k'.store (blockAddr b) = none
  globals : k'.globals = k.globals
  guarded : Guarded k.table → Guarded k'.table

namespace Kernel.Gone

/-- Nothing is given back. -/
theorem refl (k : Kernel) : Gone (fun _ _ => False) k k :=
  ⟨fun i _ => by simp, fun _ _ h _ => h, fun _ _ _ => rfl, fun _ _ h => h.elim, rfl, id⟩

/-- What has been freed in two steps. -/
theorem trans (h : Gone B k k₁) (h' : Gone B' k₁ k') : Gone (fun b n => B b n ∨ B' b n) k k' where
  free i hi := by
    rw [h'.free i hi, h.free i hi]
    constructor
    · rintro ((hf | ⟨b, n, hb, hin⟩) | ⟨b, n, hb, hin⟩)
      · exact .inl hf
      · exact .inr ⟨b, n, .inl hb, hin⟩
      · exact .inr ⟨b, n, .inr hb, hin⟩
    · rintro (hf | ⟨b, n, hb | hb, hin⟩)
      · exact .inl (.inl hf)
      · exact .inl (.inr ⟨b, n, hb, hin⟩)
      · exact .inr ⟨b, n, hb, hin⟩
  owns b n ho hno := h'.owns b n (h.owns b n ho fun m hb => hno m (.inl hb)) fun m hb =>
    hno m (.inr hb)
  store a ha hno := (h'.store a ha fun b m hb => hno b m (.inr hb)).trans
    (h.store a ha fun b m hb => hno b m (.inl hb))
  gone b m hb := by
    by_cases hb' : ∃ m, B' b m
    · obtain ⟨m, hb'⟩ := hb'
      exact h'.gone b m hb'
    · rcases hb with hb | hb
      · rw [h'.store _ (blockAddr_pos b) fun b' m' hm' he => hb' ⟨m', blockAddr_inj.mp he ▸ hm'⟩,
          h.gone b m hb]
      · exact absurd ⟨m, hb⟩ hb'
  globals := h'.globals.trans h.globals
  guarded hg := h'.guarded (h.guarded hg)

/-- The same allocations. -/
theorem congr (h : Gone B k k') (hB : ∀ b m, B b m ↔ B' b m) : Gone B' k k' := by
  rwa [show B' = B from funext fun b => funext fun m => propext (hB b m).symm]

/-- An allocation. -/
theorem release (ho : k.Owns (blockAddr b) m) :
    Gone (fun b' m' => b' = b ∧ m' = m) k (k.release (blockAddr b)) where
  free i hi := by
    have hfree : k.FreeBelow heapTotalBlocks k.table.IsFree := ⟨le_rfl, fun _ _ => .rfl⟩
    rw [(hfree.release ho).2 i hi]
    constructor
    · rintro (hf | hin)
      · exact .inl hf
      · exact .inr ⟨b, m, ⟨rfl, rfl⟩, hin⟩
    · rintro (hf | ⟨_, _, ⟨rfl, rfl⟩, hin⟩)
      · exact .inl hf
      · exact .inr hin
  owns b' n' ho' hno := ho'.release_other ho fun he => hno m ⟨blockAddr_inj.mp he, rfl⟩
  store a _ hno := by rw [Kernel.release_store, if_neg (hno b m ⟨rfl, rfl⟩)]
  gone := by
    rintro _ _ ⟨rfl, rfl⟩
    rw [Kernel.release_store, if_pos rfl]
  globals := k.release_globals _
  guarded hg := guarded_release hg _

/-- A single block. -/
theorem release_single (hs : k.Single (blockAddr b)) :
    Gone (fun b' m' => b' = b ∧ m' = 1) k (k.release (blockAddr b)) := by
  have hb : b < heapTotalBlocks := by
    obtain ⟨b', hb', he, -⟩ := hs
    exact blockAddr_inj.mp he ▸ hb'
  have hs' : k.table.IsFree b ∨ k.table.entries b = blockByte 1 0 := by
    obtain ⟨b', -, he, hs⟩ := hs
    exact blockAddr_inj.mp he ▸ hs
  refine ⟨fun i _ => ?_, fun b' n' ho' hno => ho'.release_single hs fun he =>
    hno 1 ⟨blockAddr_inj.mp he, rfl⟩, fun a _ hno => ?_, ?_, k.release_globals _,
    fun hg => guarded_release hg _⟩
  · have hbyte := release_table_single hb hs' i
    unfold HeapTable.IsFree at *
    rw [hbyte]
    split_ifs with hi
    · exact iff_of_true rfl (.inr ⟨b, 1, ⟨rfl, rfl⟩, by omega, by omega⟩)
    · refine ⟨.inl, ?_⟩
      rintro (hf | ⟨_, _, ⟨rfl, rfl⟩, h1, h2⟩)
      · exact hf
      · exact absurd (by omega) hi
  · rw [Kernel.release_store, if_neg (hno b 1 ⟨rfl, rfl⟩)]
  · rintro _ _ ⟨rfl, rfl⟩
    rw [Kernel.release_store, if_pos rfl]

/-- The null pointer, if the table is guarded. -/
theorem release_null (hg : Guarded k.table) : Gone (fun _ _ => False) k (k.release 0) where
  free i hi := by
    have hk := (Extends.refl k).release_null hg
    refine ⟨fun hf => .inl ?_, fun hor => ?_⟩
    · by_contra hno
      exact hk.keeps.not_isFree hi hno hf
    · rcases hor with hf | ⟨_, _, hno, -⟩
      · have hfresh : k.Fresh (blockAddr i) := ⟨i, hi, rfl, hf⟩
        obtain ⟨i', -, he, hf'⟩ := hfresh.release 0
        exact blockAddr_inj.mp he ▸ hf'
      · exact hno.elim
  owns b n ho _ := ((Extends.refl k).release_null hg).owns ho
  store a ha _ := by rw [Kernel.release_store, if_neg ha]
  gone _ _ hno := hno.elim
  globals := k.release_globals _
  guarded hg := guarded_release hg _

/-- The table decides what single blocks there are. -/
theorem single (h : Gone B k k') (ho : k.Owns (blockAddr b) 1) (hno : ∀ m, ¬B b m) :
    k'.Single (blockAddr b) := (h.owns b 1 ho hno).single

end Kernel.Gone

/-- The tables of a space. -/
theorem Kernel.withoutTables_gone : ∀ (fuel i : ℕ) (k : Kernel), i + fuel ≤ 1024 →
    (∀ j < 1024, k.Single (entryAddress (f j))) →
    Gone (fun b m => m = 1 ∧ ∃ j, i ≤ j ∧ j < i + fuel ∧ blockAddr b = entryAddress (f j)) k
        (k.withoutTables f fuel i) ∧
      ∀ q, k.Single q → (k.withoutTables f fuel i).Single q
  | 0, i, k, _, _ => ⟨(Gone.refl k).congr fun b m => ⟨False.elim, by
      rintro ⟨-, j, h1, h2, -⟩
      omega⟩, fun _ hq => hq⟩
  | fuel + 1, i, k, hi, hs => by
    have hsi := hs i (by omega)
    obtain ⟨hgone, hsingle⟩ := withoutTables_gone fuel (i + 1) (k.release (entryAddress (f i)))
      (by omega) fun j hj => (hs j hj).release hsi
    refine ⟨?_, fun q hq => hsingle q (hq.release hsi)⟩
    obtain ⟨b, hb, he, -⟩ := hsi
    have hfirst := Gone.release_single (he ▸ hs i (by omega) : k.Single (blockAddr b))
    rw [← he] at hfirst
    refine (hfirst.trans hgone).congr fun b' m => ?_
    constructor
    · rintro (⟨rfl, rfl⟩ | ⟨rfl, j, h1, h2, hj⟩)
      · exact ⟨rfl, i, le_rfl, by omega, he.symm⟩
      · exact ⟨rfl, j, by omega, by omega, hj⟩
    · rintro ⟨rfl, j, h1, h2, hj⟩
      rcases Nat.eq_or_lt_of_le h1 with rfl | hlt
      · exact .inl ⟨blockAddr_inj.mp (hj.trans he), rfl⟩
      · exact .inr ⟨rfl, j, hlt, by omega, hj⟩

/-- A space. -/
theorem Kernel.withoutSpace_gone (hs : ∀ q, SpacePointer c d f q → k.Single q) :
    Gone (fun b m => m = 1 ∧ SpacePointer c d f (blockAddr b)) k (k.withoutSpace c d f) := by
  obtain ⟨hgone, hsingle⟩ := withoutTables_gone (f := f) 1024 0 k le_rfl fun j hj =>
    hs _ (.inr (.inr ⟨j, hj, rfl⟩))
  have hd := hsingle d (hs d (.inr (.inl rfl)))
  have hc := (hsingle c (hs c (.inl rfl))).release hd
  obtain ⟨bd, -, rfl, -⟩ := hd
  obtain ⟨bc, -, rfl, -⟩ := hc
  have hd := hsingle _ (hs _ (.inr (.inl rfl)))
  have hc := (hsingle _ (hs _ (.inl rfl))).release hd
  refine ((hgone.trans (.release_single hd)).trans (.release_single hc)).congr fun b m => ?_
  constructor
  · rintro ((⟨rfl, j, -, hj, he⟩ | ⟨rfl, rfl⟩) | ⟨rfl, rfl⟩)
    · exact ⟨rfl, .inr (.inr ⟨j, by omega, he⟩)⟩
    · exact ⟨rfl, .inr (.inl rfl)⟩
    · exact ⟨rfl, .inl rfl⟩
  · rintro ⟨rfl, he | he | ⟨i, hi, he⟩⟩
    · exact .inr ⟨blockAddr_inj.mp he, rfl⟩
    · exact .inl (.inr ⟨blockAddr_inj.mp he, rfl⟩)
    · exact .inl (.inl ⟨rfl, i, Nat.zero_le i, by omega, he⟩)

end Hyperion
