import Hyperion.KernelHeap

/-!
# What can be freed

Freeing a pointer takes nothing from the other allocations if it is null, the address of a
free block, or the start of an allocation (`Loose`). `Drops S k k'` holds while pointers of
`S`, all loose, are freed.
-/

namespace Hyperion

namespace Kernel

variable {k k' k₀ : Kernel} {p q a c n : ℕ} {S F : ℕ → Prop}

/-- The guard below the table is not freed. -/
theorem guarded_release (hg : Guarded k.table) (p : ℕ) : Guarded (k.release p).table := by
  rw [release_table]
  exact (Keeps.refl k.table).free_guarded _ hg

/-- Freeing an allocation makes its first block free. -/
theorem Owns.release_self (h : k.Owns p n) : (k.release p).Fresh p := by
  obtain ⟨b, rfl, hb⟩ := h
  refine ⟨b, hb.lt, rfl, ?_⟩
  unfold HeapTable.IsFree
  have hpos := hb.pos
  rw [release_table, heapAddressToBlock_blockAddr k hb.lt, heapMarkBlocksFree_held hb, if_pos]
  exact ⟨le_rfl, by omega, Int.ofNat_lt.mpr hb.lt⟩

/-- What is free stays free. -/
theorem Fresh.release (h : k.Fresh q) (p : ℕ) : (k.release p).Fresh q := by
  obtain ⟨b, hb, rfl, hf⟩ := h
  refine ⟨b, hb, rfl, ?_⟩
  rw [release_table]
  rcases heapMarkBlocksFreeLoop_eq_or _ _ k.table b with he | he
  · exact he.trans hf
  · exact he

/-- Freeing `p` takes nothing from another allocation. -/
def Loose (k : Kernel) (p : ℕ) : Prop := p = 0 ∨ k.Fresh p ∨ ∃ n, k.Owns p n

namespace Loose

theorem null : k.Loose 0 := .inl rfl

/-- The start of an allocation. -/
theorem of_owns (h : k.Owns p n) : k.Loose p := .inr (.inr ⟨n, h⟩)

/-- The table decides. -/
theorem of_table (h : k.Loose p) (ht : k'.table = k.table) : k'.Loose p := by
  rcases h with h | ⟨b, hb, he, hf⟩ | ⟨n, h⟩
  · exact .inl h
  · exact .inr (.inl ⟨b, hb, he, ht ▸ hf⟩)
  · exact .inr (.inr ⟨n, h.of_table ht⟩)

/-- The other allocations stay. -/
theorem release_owns (hp : k.Loose p) (hg : Guarded k.table) (h : k.Owns q n) (hne : q ≠ p) :
    (k.release p).Owns q n := by
  rcases hp with rfl | hf | ⟨m, ho⟩
  · exact ((Extends.refl k).release_null hg).owns h
  · exact ((Extends.refl k).release hf).owns h
  · exact h.release_other ho hne

/-- A loose pointer stays loose when another one is freed. -/
theorem release (hp : k.Loose p) (hg : Guarded k.table) (hq : k.Loose q) :
    (k.release p).Loose q := by
  rcases hq with rfl | hf | ⟨n, ho⟩
  · exact .null
  · exact .inr (.inl (hf.release p))
  · by_cases hne : q = p
    · subst hne
      exact .inr (.inl ho.release_self)
    · exact .of_owns (hp.release_owns hg ho hne)

end Loose

/-- Only pointers of `S` have been freed since `k`, and only structures at `S` changed. -/
structure Drops (S : ℕ → Prop) (k k' : Kernel) : Prop where
  guarded : Guarded k'.table
  loose : ∀ p, S p → k'.Loose p
  owns : ∀ q n, k.Owns q n → ¬S q → k'.Owns q n ∧ k'.store q = k.store q

namespace Drops

/-- Nothing has been freed yet. -/
theorem refl (hg : Guarded k.table) (hS : ∀ p, S p → k.Loose p) : Drops S k k :=
  ⟨hg, hS, fun _ _ h _ => ⟨h, rfl⟩⟩

/-- One more of the pointers is freed. -/
theorem release (h : Drops S k k') (hp : S p) : Drops S k (k'.release p) where
  guarded := guarded_release h.guarded p
  loose q hq := (h.loose p hp).release h.guarded (h.loose q hq)
  owns q n ho hq := by
    have hne : q ≠ p := fun he => hq (he ▸ hp)
    obtain ⟨ho', hs⟩ := h.owns q n ho hq
    exact ⟨(h.loose p hp).release_owns h.guarded ho' hne, by rw [release_store, if_neg hne, hs]⟩

/-- A structure at one of the pointers. -/
theorem put (h : Drops S k k') (hp : S p) (o : Obj) : Drops S k (k'.put p o) where
  guarded := h.guarded
  loose := h.loose
  owns q n ho hq := by
    have hne : q ≠ p := fun he => hq (he ▸ hp)
    obtain ⟨ho', hs⟩ := h.owns q n ho hq
    exact ⟨ho', by rw [put_store, if_neg hne, hs]⟩

/-- The heap and the store decide. -/
theorem of_eq {k₁ : Kernel} (h : Drops S k k') (ht : k₁.heapTable = k'.heapTable)
    (hs : k₁.store = k'.store) : Drops S k k₁ := by
  have htable : k₁.table = k'.table := by simp [table, heap, ht]
  refine ⟨htable ▸ h.guarded, fun p hp => (h.loose p hp).of_table htable, fun q n ho hq => ?_⟩
  obtain ⟨ho', hs'⟩ := h.owns q n ho hq
  exact ⟨ho'.of_table htable, hs ▸ hs'⟩

/-- Two steps. -/
theorem trans {k₁ : Kernel} (h : Drops S k k₁) (h' : Drops S k₁ k') : Drops S k k' where
  guarded := h'.guarded
  loose := h'.loose
  owns q n ho hq := by
    obtain ⟨ho₁, hs₁⟩ := h.owns q n ho hq
    obtain ⟨ho', hs'⟩ := h'.owns q n ho₁ hq
    exact ⟨ho', hs'.trans hs₁⟩

end Drops

/-! ## The heap without some allocations -/

/-- Block `c` is in an allocation that starts at a pointer of `F`. -/
def Within (k : Kernel) (F : ℕ → Prop) (c : ℕ) : Prop :=
  ∃ b n, F (blockAddr b) ∧ Held k.table b n ∧ b ≤ c ∧ c < b + n

open scoped Classical in
/-- The state with the allocations at the pointers of `F` free. -/
noncomputable def without (k : Kernel) (F : ℕ → Prop) : Kernel := { k with
  heapTable := fun i => if 0 ≤ i ∧ k.Within F i.toNat then blockFree else k.heapTable i }

/-- The entries of the other blocks are the same. -/
theorem without_entry (k : Kernel) (F : ℕ → Prop) {c : ℕ} (h : ¬k.Within F c) :
    (k.without F).table.entries c = k.table.entries c :=
  if_neg fun hc => h hc.2

/-- A block is free without the allocations if it is in one of them or was free. -/
theorem without_isFree : (k.without F).table.IsFree c ↔ k.Within F c ∨ k.table.IsFree c := by
  by_cases h : k.Within F c
  · refine iff_of_true ?_ (.inl h)
    exact if_pos ⟨Int.natCast_nonneg c, by rwa [Int.toNat_natCast]⟩
  · unfold HeapTable.IsFree
    rw [without_entry k F h]
    exact ⟨.inr, fun h' => h'.resolve_left h⟩

/-- The free allocations do not run into what is taken. -/
theorem without_keeps (k : Kernel) (F : ℕ → Prop) : Keeps (k.without F).table k.table where
  total := rfl
  taken b _ hf := (without_entry k F fun h => hf (without_isFree.mpr (.inl h))).symm
  apart b hb hnext hf := by
    rcases without_isFree.mp hf with ⟨s, n, hF, hheld, hlo, hhi⟩ | hfree
    · have hlast : b + 1 = s + n := by
        by_contra hne
        exact hnext (without_isFree.mpr (.inl ⟨s, n, hF, hheld, by omega, by omega⟩))
      have htotal : b + 1 < k.table.total := hb
      have hbyte := hheld.byte (b - s) (by omega) (by omega)
      rw [Nat.add_sub_cancel' hlo] at hbyte
      rw [hbyte, blockByte_hasNext]
      omega
    · rw [hfree]
      rfl
  guarded := by
    rintro ⟨g, hlo, hhi, hg⟩
    refine ⟨g, hlo, hhi, ?_⟩
    have he : (k.without F).table.entries g = k.table.entries g := if_neg fun h => by omega
    rwa [he] at hg

/-- The guard stays, as it is below the table. -/
theorem without_guarded (hg : Guarded k.table) : Guarded (k.without F).table := by
  obtain ⟨g, hlo, hhi, hg⟩ := hg
  refine ⟨g, hlo, hhi, ?_⟩
  have he : (k.without F).table.entries g = k.table.entries g := if_neg fun h => by omega
  rwa [he]

/-- What is taken away is free. -/
theorem Owns.fresh_without (h : k.Owns a n) (hF : F a) : (k.without F).Fresh a := by
  obtain ⟨b, rfl, hb⟩ := h
  have := hb.pos
  exact ⟨b, hb.lt, rfl, without_isFree.mpr (.inl ⟨b, n, hF, hb, le_rfl, by omega⟩)⟩

/-- The other allocations stay. -/
theorem Owns.without (h : k.Owns a n) (hF : ¬F a) : (k.without F).Owns a n := by
  obtain ⟨b, rfl, hb⟩ := h
  refine ⟨b, rfl, hb.congr rfl fun i hi hi' _ => without_entry k F ?_⟩
  rintro ⟨s, m, hs, hheld, hlo, hhi⟩
  have hne : s ≠ b := by
    rintro rfl
    exact hF hs
  rcases hheld.disjoint hb hne with hd | hd <;> omega

end Kernel

end Hyperion
