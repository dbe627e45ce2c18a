import Hyperion.PageMap

/-!
# Translation

What `paging_get_physical_address` reads from the entries of an address space : the
addresses of a mapped range lead to the range they were mapped to, and in a new space
every address leads to itself.

An entry has an address and flags, and `translate` takes the one with the offset in the page.
`paging_set`, `paging_map` and `paging_get_physical_address` always have a result in a space
(`pagingSet_run`, `pagingMap_run`, `pagingGetPhysicalAddress_run`), so that the lemmas on longer
calls are equations. `paging_map_to` checks its three addresses and fails, or maps page after page
(`pagingMapTo_valid`). Virtual addresses are words, so that a range may go over the end of the
address space and on from its beginning, and each page of it is reached once
(`mapTo_reached`).

`pagingMapTo_exact` is the call as a whole, and `pagingNew4gb_identity` a space that is new.
-/

namespace Hyperion

open Partial

variable {k : Kernel} {c d virt phys physEnd flags : ℕ} {f e : ℕ → ℕ} {r : Prop}

theorem pagingAlignToLowerPage_mod (a : ℕ) : pagingAlignToLowerPage a % 4096 = 0 := by
  unfold pagingAlignToLowerPage
  omega

theorem pagingAlignToLowerPage_div (a : ℕ) : pagingAlignToLowerPage a / 4096 = a / 4096 := by
  unfold pagingAlignToLowerPage
  omega

theorem pagingAlignToLowerPage_le (a : ℕ) : pagingAlignToLowerPage a ≤ a := Nat.sub_le _ _

/-- Where the entries `e` lead the address `virt`. -/
def translate (e : ℕ → ℕ) (virt : ℕ) : ℕ :=
  (entryAddress (e (virt / 4096)) + virt % 4096) % 4294967296

/-- An address in a page whose entry holds `phys`. -/
theorem translate_of_entry (he : e (virt / 4096) = phys ||| flags) (hp : phys % 4096 = 0)
    (hlt : phys < 4294967296) (hf : flags < 4096) : translate e virt = phys + virt % 4096 := by
  rw [translate, he, entryAddress_or hp hlt hf]
  omega

namespace Maps

/-- `paging_get` has a result. -/
theorem pagingGet_run (h : Maps k c d f e) (hv : virt % 4096 = 0) (hlt : virt < 4294967296) :
    pagingGet d virt k = some (e (virt / 4096), k) := by
  obtain ⟨a, k', hrun, rfl, rfl⟩ := ((pagingGet_meets (r := True)
    (Q := fun a k' => a = e (virt / 4096) ∧ k' = k) h hv hlt).mpr ⟨rfl, rfl⟩).exists_result
  exact hrun

/-- `paging_set` on an aligned address succeeds. -/
theorem pagingSet_run (h : Maps k c d f e) (hv : virt % 4096 = 0) (hlt : virt < 4294967296)
    (v : ℕ) : ∃ k', pagingSet d virt v k = some (0, k') ∧
      Maps k' c d f (setPage e (virt / 4096) v) ∧ TablesOnly f k k' := by
  have htotal : Meets True (pagingSet d virt v) k _ := pagingSet_meets h hv hlt
  obtain ⟨_, k', hrun, rfl, hm, ht⟩ := htotal.exists_result
  exact ⟨k', hrun, hm, ht⟩

theorem getChunk_run (h : Maps k c d f e) : getChunk c k = some (d, k) := by
  simp [getChunk, run_bind, Kernel.getObj_run h.chunk_ne h.chunk, run_pure]

/-- `paging_map` of a page succeeds. -/
theorem pagingMap_run (h : Maps k c d f e) (hv : virt % 4096 = 0) (hlt : virt < 4294967296)
    (hp : phys % 4096 = 0) (flags : ℕ) : ∃ k', pagingMap c virt phys flags k = some (0, k') ∧
      Maps k' c d f (setPage e (virt / 4096) (phys ||| flags)) ∧ TablesOnly f k k' := by
  obtain ⟨k', hrun, hm⟩ := h.pagingSet_run hv hlt (phys ||| flags)
  refine ⟨k', ?_, hm⟩
  simp only [pagingMap, hv, hp, ne_eq, not_true_eq_false, decide_false, Bool.or_self,
    Bool.false_eq_true, if_false, run_bind, h.getChunk_run, Option.bind_some]
  exact hrun

/-- `paging_get_physical_address` translates. -/
theorem pagingGetPhysicalAddress_run (h : Maps k c d f e) (hlt : virt < 4294967296) :
    pagingGetPhysicalAddress d virt k = some (translate e virt, k) := by
  have hle := pagingAlignToLowerPage_le virt
  have hdiff : virt - pagingAlignToLowerPage virt = virt % 4096 := by
    unfold pagingAlignToLowerPage
    omega
  simp only [pagingGetPhysicalAddress, run_bind,
    h.pagingGet_run (pagingAlignToLowerPage_mod virt) (hle.trans_lt hlt),
    pagingAlignToLowerPage_div, hdiff, Option.bind_some]
  rfl

end Maps

/-! ## A mapped range -/

/-- `paging_map_to` on addresses that are not valid. -/
theorem pagingMapTo_invalid (h : ¬MapToValid virt phys physEnd) :
    pagingMapTo c virt phys physEnd flags k = some (-EINVARG, k) := by
  unfold pagingMapTo
  split_ifs with h1 h2 h3 h4
  · rfl
  · rfl
  · rfl
  · rfl
  · exact absurd ⟨not_not.mp h1, not_not.mp h2, not_not.mp h3, not_lt.mp h4⟩ h

/-- `paging_map_to` on valid addresses succeeds. -/
theorem pagingMapTo_valid (h : Maps k c d f e) (hlt : virt < 4294967296)
    (hv : MapToValid virt phys physEnd) :
    ∃ k', pagingMapTo c virt phys physEnd flags k = some (0, k') ∧
      Maps k' c d f (mapTo e virt phys physEnd flags) ∧ TablesOnly f k k' := by
  have htotal : Meets True (pagingMapTo c virt phys physEnd flags) k _ := pagingMapTo_meets h hlt
  obtain ⟨res, k', hrun, ⟨rfl, -, hm, ht⟩ | ⟨-, hno, -⟩⟩ := htotal.exists_result
  · exact ⟨k', hrun, hm, ht⟩
  · exact absurd hv hno

/-- The entry of page `m` of the range. -/
theorem mapTo_reached (hlt : virt < 4294967296) (he : physEnd < 4294967296)
    (hv : MapToValid virt phys physEnd) {m : ℕ} (hm : m < (physEnd - phys) / 4096) :
    mapTo e virt phys physEnd flags (pageAfter virt m) = (phys + m * 4096) ||| flags := by
  have hle := hv.le
  rw [mapTo, mapPages_reached hlt (by omega) (by unfold pageCount; omega) hm,
    Nat.mod_eq_of_lt (by omega), Nat.mul_comm]

/-- A page outside the range keeps its entry. -/
theorem mapTo_of_not_reached (hlt : virt < 4294967296) {n : ℕ}
    (hn : ∀ m < (physEnd - phys) / 4096, n ≠ pageAfter virt m) :
    mapTo e virt phys physEnd flags n = e n := by
  exact mapPages_of_not_reached hlt hn

/-- The addresses of the range lead to it. -/
theorem translate_mapTo (hlt : virt < 4294967296) (he : physEnd < 4294967296) (hf : flags < 4096)
    (hv : MapToValid virt phys physEnd) {x : ℕ} (hx : x < (physEnd - phys) / 4096 * 4096) :
    translate (mapTo e virt phys physEnd flags) ((virt + x) % 4294967296) = phys + x := by
  have hle := hv.le
  have hvirt := hv.virt_mod
  have hphys := hv.phys_mod
  have hpage : (virt + x) % 4294967296 / 4096 = pageAfter virt (x / 4096) := by
    unfold pageAfter pageCount
    omega
  have hentry : mapTo e virt phys physEnd flags (pageAfter virt (x / 4096)) = _ :=
    mapTo_reached hlt he hv (by omega)
  rw [← hpage] at hentry
  rw [translate_of_entry hentry (by omega) (by omega) hf]
  omega

/-- `paging_map_to` changes nothing and fails, or sets exactly the entries of the range, and
its addresses then lead to the physical range. -/
theorem pagingMapTo_exact (h : Maps k c d f e) (hv : virt < 4294967296)
    (he : physEnd < 4294967296) (hf : flags < 4096) :
    (¬MapToValid virt phys physEnd →
      pagingMapTo c virt phys physEnd flags k = some (-EINVARG, k)) ∧
    (MapToValid virt phys physEnd → ∃ k' e',
      pagingMapTo c virt phys physEnd flags k = some (0, k') ∧ Maps k' c d f e' ∧
      TablesOnly f k k' ∧
      (∀ m < (physEnd - phys) / 4096, e' (pageAfter virt m) = (phys + m * 4096) ||| flags) ∧
      (∀ n, (∀ m < (physEnd - phys) / 4096, n ≠ pageAfter virt m) → e' n = e n) ∧
      ∀ x < (physEnd - phys) / 4096 * 4096,
        pagingGetPhysicalAddress d ((virt + x) % 4294967296) k' = some (phys + x, k')) := by
  refine ⟨pagingMapTo_invalid, fun hvalid => ?_⟩
  obtain ⟨k', hrun, hmaps, ht⟩ := pagingMapTo_valid h hv hvalid
  refine ⟨k', _, hrun, hmaps, ht, fun m hm => mapTo_reached hv he hvalid hm,
    fun n hn => mapTo_of_not_reached hv hn, fun x hx => ?_⟩
  rw [hmaps.pagingGetPhysicalAddress_run (Nat.mod_lt _ (by decide)),
    translate_mapTo hv he hf hvalid hx]

/-- The last page and the first one are mapped to two pages, for writing. -/
theorem pagingMapTo_exact_wrap : ∃ k' e',
    pagingMapTo 4096 0xfffff000 0x5000 0x7000 7 Kernel.oneSpace = some (0, k') ∧
      Maps k' 4096 8192 (fun i => 12288 + i * 4096) e' ∧
      pagingGetPhysicalAddress 8192 1 k' = some (0x6001, k') := by
  have hvalid : MapToValid 0xfffff000 0x5000 0x7000 :=
    ⟨by decide, by decide, by decide, by decide⟩
  obtain ⟨k', e', hrun, hmaps, -, -, -, htranslate⟩ := (pagingMapTo_exact Kernel.oneSpace_maps
    (by decide) (by decide) (show 7 < 4096 by decide)).2 hvalid
  exact ⟨k', e', hrun, hmaps, htranslate 0x1001 (by decide)⟩

/-! ## A new space -/

/-- In the space that `paging_new_4gb` builds every address leads to itself, through entries
that hold the flags. -/
theorem pagingNew4gb_identity (hf : flags < 256) (hfree : 1026 ≤ k.freeBlocks) :
    ∃ c k' d f, pagingNew4gb flags k = some (c, k') ∧ Maps k' c d f (selfEntries flags) ∧
      ∀ v < 4294967296, pagingGetPhysicalAddress d v k' = some (v, k') ∧
        ∃ entry, pagingGet d (pagingAlignToLowerPage v) k' = some (entry, k') ∧
          entry % 4096 = flags := by
  have hroom : k.Roomy (heapTotalBlocks - k.freeBlocks) := ⟨by omega⟩
  have hle := k.freeBlocks_le
  obtain ⟨c, k', hrun, -, -, -, -, d, f, hspace, hinj⟩ :=
    (pagingNew4gb_built (r := True) (show flags < 4096 by omega)
      fun _ => ⟨hroom, by omega⟩).exists_result
  have hmaps := hspace.maps (fun p hp => hp.1.ne_zero) hinj
  refine ⟨c, k', d, f, hrun, hmaps, fun v hv => ⟨?_, _, hmaps.pagingGet_run
    (pagingAlignToLowerPage_mod v) ((pagingAlignToLowerPage_le v).trans_lt hv), ?_⟩⟩
  · have hentry : selfEntries flags (v / 4096) = v / 4096 * 4096 ||| flags := by
      rw [selfEntries, Nat.mod_eq_of_lt (by omega)]
    rw [hmaps.pagingGetPhysicalAddress_run hv,
      translate_of_entry hentry (by omega) (by omega) (by omega)]
    congr 2
    omega
  · rw [pagingAlignToLowerPage_div, selfEntries, or_flags (by omega) (by omega)]
    omega

/-- In a heap with nothing allocated, the kernel's own space. -/
theorem pagingNew4gb_identity_empty : ∃ c k' d f,
    pagingNew4gb 7 Kernel.empty = some (c, k') ∧ Maps k' c d f (selfEntries 7) ∧
      ∀ v < 4294967296, pagingGetPhysicalAddress d v k' = some (v, k') ∧
        ∃ entry, pagingGet d (pagingAlignToLowerPage v) k' = some (entry, k') ∧
          entry % 4096 = 7 :=
  pagingNew4gb_identity (by decide)
    (Kernel.le_freeBlocks (fun _ _ _ => rfl) (show 0 + 1026 ≤ heapTotalBlocks by decide))

end Hyperion
