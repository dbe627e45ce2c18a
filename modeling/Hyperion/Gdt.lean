import Hyperion.Lib.Partial
import Hyperion.Lib.Segment
import Mathlib.Tactic.IntervalCases

/-!
# The global descriptor table

`gdt.c` turns descriptors that are easy to write into those of the processor, eight bytes each.
What the processor reads from the table is what was written, for every base, type and limit that
is accepted (`gdtStructuredToGdt_decodes`).

A limit above 65536 is stored in units of a page, and is accepted only if its low bits are all
set, or the kernel panics (`GdtStructured.Accepted`). The bytes are stored one after the other
over what was there, so that the flags come first and the rest of the limit goes into the same byte
(`EntryStored.of_flags`). Reading is on its own, from where the processor has the fields of a
descriptor (`EntryStored.segmentAt`), and knows nothing of how the bytes were put there.

One entry is `encodeGdtEntry_meets`. The loop stores entry after entry and leaves those it has
stored (`gdtStructuredToGdtLoop_meets`). The six entries of the kernel are accepted
(`kernelGdtStructured_accepted`).
-/

namespace Hyperion

open Partial X86

/-- `struct gdt_structured`. -/
structure GdtStructured where
  base : UInt32
  limit : UInt32
  type : UInt8

/-- The bytes of the memory. -/
abbrev GdtM := Prog (ℕ → UInt8)

/-! ## `gdt.c` -/

/-- `*p = c`. -/
def storeByte (p : ℕ) (c : UInt8) : GdtM Unit := modify fun m a => if a = p then c else m a

/-- `encodeGdtEntry` behind its second `if`, with the limit that this leaves. -/
def encodeGdtFields (target : ℕ) (limit : UInt32) (source : GdtStructured) : GdtM Unit := do
  storeByte target (limit &&& 0xFF).toUInt8
  storeByte (target + 1) (limit >>> 8 &&& 0xFF).toUInt8
  let m ← get
  storeByte (target + 6) (m (target + 6) ||| (limit >>> 16 &&& 0x0F).toUInt8)
  storeByte (target + 2) (source.base &&& 0xFF).toUInt8
  storeByte (target + 3) (source.base >>> 8 &&& 0xFF).toUInt8
  storeByte (target + 4) (source.base >>> 16 &&& 0xFF).toUInt8
  storeByte (target + 7) (source.base >>> 24 &&& 0xFF).toUInt8
  storeByte (target + 5) source.type

/-- A panic does not return. -/
def encodeGdtEntry (target : ℕ) (source : GdtStructured) : GdtM Unit := do
  if 65536 < source.limit ∧ source.limit &&& 0xFFF ≠ 0xFFF then fault
  storeByte (target + 6) 0x40
  if 65536 < source.limit then
    storeByte (target + 6) 0xC0
    encodeGdtFields target (source.limit >>> 12) source
  else encodeGdtFields target source.limit source

/-- The loop of `gdt_structured_to_gdt` from `i` on, `n` rounds. -/
def gdtStructuredToGdtLoop (gdt : ℕ) (structuredGdt : ℕ → GdtStructured) : (n i : ℕ) → GdtM Unit
  | 0, _ => pure ()
  | n + 1, i => do
    encodeGdtEntry (gdt + i * 8) (structuredGdt i)
    gdtStructuredToGdtLoop gdt structuredGdt n (i + 1)

def gdtStructuredToGdt (gdt : ℕ) (structuredGdt : ℕ → GdtStructured) (totalEntries : Int) :
    GdtM Unit := gdtStructuredToGdtLoop gdt structuredGdt totalEntries.toNat 0

/-- `gdt_structured` of `kernel.c`, with the task state segment of 100 bytes at `tss`. -/
def kernelGdtStructured (tss : UInt32) : ℕ → GdtStructured := fun i =>
  [⟨0x00, 0x00, 0x00⟩, ⟨0x00, 0xffffffff, 0x9a⟩, ⟨0x00, 0xffffffff, 0x92⟩, ⟨0x00, 0xffffffff, 0xf8⟩,
    ⟨0x00, 0xffffffff, 0xf2⟩, ⟨tss, 100, 0xE9⟩].getD i ⟨0, 0, 0⟩

/-! ## One entry -/

/-- The limits that do not end in a panic. -/
def GdtStructured.Accepted (source : GdtStructured) : Prop :=
  source.limit ≤ 65536 ∨ source.limit &&& 0xFFF = 0xFFF

/-- What the processor is meant to read. -/
def GdtStructured.segment (source : GdtStructured) : Segment :=
  ⟨source.base.toNat, source.limit.toNat, source.type⟩

/-- The eight bytes of an entry with the limit `limit` under `flags`, and nothing else changed. -/
structure EntryStored (m : ℕ → UInt8) (target : ℕ) (flags : UInt8) (limit base : UInt32)
    (type : UInt8) (m' : ℕ → UInt8) : Prop where
  limit₀ : m' target = (limit &&& 0xFF).toUInt8
  limit₁ : m' (target + 1) = (limit >>> 8 &&& 0xFF).toUInt8
  limit₂ : m' (target + 6) = flags ||| (limit >>> 16 &&& 0x0F).toUInt8
  base₀ : m' (target + 2) = (base &&& 0xFF).toUInt8
  base₁ : m' (target + 3) = (base >>> 8 &&& 0xFF).toUInt8
  base₂ : m' (target + 4) = (base >>> 16 &&& 0xFF).toUInt8
  base₃ : m' (target + 7) = (base >>> 24 &&& 0xFF).toUInt8
  type : m' (target + 5) = type
  frame : ∀ a, a < target ∨ target + 8 ≤ a → m' a = m a

section Entry

variable {r : Prop} {m m' : ℕ → UInt8} {target gdt n i : ℕ} {source : GdtStructured}
  {flags type : UInt8} {limit base : UInt32}

/-- The fields are stored over the flags. -/
theorem encodeGdtFields_meets :
    Meets r (encodeGdtFields target limit source) m fun _ =>
      EntryStored m target (m (target + 6)) limit source.base source.type := by
  simp only [encodeGdtFields, storeByte, Meets.bind_iff, Meets.modify_iff, Meets.get_iff]
  refine ⟨by simp, by simp, by simp, by simp, by simp, by simp, by simp, by simp, fun a ha => ?_⟩
  have hne (i : ℕ) (hi : i < 8) : a ≠ target + i := by omega
  rw [if_neg (hne 5 (by decide)), if_neg (hne 7 (by decide)), if_neg (hne 4 (by decide)),
    if_neg (hne 3 (by decide)), if_neg (hne 2 (by decide)), if_neg (hne 6 (by decide)),
    if_neg (hne 1 (by decide)), if_neg (show a ≠ target from hne 0 (by decide))]

theorem EntryStored.of_flags {u : ℕ → UInt8}
    (h : EntryStored u target (u (target + 6)) limit base type m') (hflags : u (target + 6) = flags)
    (hu : ∀ a, a < target ∨ target + 8 ≤ a → u a = m a) :
    EntryStored m target flags limit base type m' := by
  subst hflags
  exact { h with frame := fun a ha => (h.frame a ha).trans (hu a ha) }

/-- What the processor reads from the bytes. -/
theorem EntryStored.segmentAt (h : EntryStored m target flags limit base type m')
    (hf : flags.toNat % 16 = 0) (hlimit : limit.toNat < 1048576) : segmentAt m' target =
      ⟨base.toNat, if flags.toNat.testBit 7 then limit.toNat * 4096 + 4095 else limit.toNat,
        type⟩ := by
  rw [X86.segmentAt, h.limit₀, h.limit₁, h.limit₂, h.base₀, h.base₁, h.base₂, h.base₃, h.type,
    scaledLimit_bytes hf hlimit, word_of_bytes]

/-- The limit that the fields are stored with is read as the limit of the entry. -/
theorem EntryStored.segment (h : source.Accepted) (he : EntryStored m target
    (if 65536 < source.limit then 0xC0 else 0x40)
    (if 65536 < source.limit then source.limit >>> 12 else source.limit) source.base source.type
    m') : X86.segmentAt m' target = source.segment := by
  have hlt := source.limit.toNat_lt
  by_cases hlarge : 65536 < source.limit
  · rw [if_pos hlarge, if_pos hlarge] at he
    have hones : source.limit.toNat % 4096 = 4095 := by
      have hand := (h.resolve_left (UInt32.not_le.mpr hlarge))
      have hnat := congrArg UInt32.toNat hand
      rw [UInt32.toNat_and] at hnat
      rw [← Nat.and_two_pow_sub_one_eq_mod _ 12]
      exact hnat
    have hshift : (source.limit >>> 12).toNat = source.limit.toNat / 4096 := toNat_shiftRight rfl _
    rw [he.segmentAt rfl (by omega), hshift, if_pos (by decide), GdtStructured.segment]
    congr 1
    omega
  · rw [if_neg hlarge, if_neg hlarge] at he
    have hsmall : source.limit.toNat ≤ 65536 := UInt32.le_iff_toNat_le.mp (UInt32.not_lt.mp hlarge)
    rw [he.segmentAt rfl (by omega), if_neg (by decide), GdtStructured.segment]

/-- An accepted entry is read back, and nothing else has changed. -/
theorem encodeGdtEntry_meets (h : source.Accepted) :
    Meets r (encodeGdtEntry target source) m fun _ m' =>
      segmentAt m' target = source.segment ∧
      ∀ a, a < target ∨ target + 8 ≤ a → m' a = m a := by
  have hpanic : ¬(65536 < source.limit ∧ source.limit &&& 0xFFF ≠ 0xFFF) := by
    rintro ⟨hlarge, hlow⟩
    rcases h with hsmall | hones
    · exact absurd hlarge (UInt32.not_lt.mpr hsmall)
    · exact hlow hones
  rw [encodeGdtEntry, if_neg hpanic]
  have hflags : ∀ {u : ℕ → UInt8}, (∀ a, a ≠ target + 6 → u a = m a) →
      u (target + 6) = (if 65536 < source.limit then 0xC0 else 0x40) →
      Meets r (encodeGdtFields target
        (if 65536 < source.limit then source.limit >>> 12 else source.limit) source) u fun _ m' =>
        segmentAt m' target = source.segment ∧
        ∀ a, a < target ∨ target + 8 ≤ a → m' a = m a := fun hu h6 =>
    encodeGdtFields_meets.mono fun _ m' he => by
      have he' := he.of_flags h6 fun a ha => hu a (by omega)
      exact ⟨he'.segment h, he'.frame⟩
  refine Meets.bind_iff.mpr (Meets.modify_iff.mpr (Meets.ite_iff.mpr ⟨fun hlarge => ?_, ?_⟩))
  · rw [if_pos hlarge, if_pos hlarge] at hflags
    exact Meets.bind_iff.mpr (Meets.modify_iff.mpr
      (hflags (fun a ha => (if_neg ha).trans (if_neg ha)) (if_pos rfl)))
  · intro hsmall
    rw [if_neg hsmall, if_neg hsmall] at hflags
    exact hflags (fun a ha => if_neg ha) (if_pos rfl)

/-! ## The table -/

/-- Round `i` stores entry `i` and the rounds behind it keep it. -/
theorem gdtStructuredToGdtLoop_meets {structuredGdt : ℕ → GdtStructured} : ∀ {n i : ℕ}
    {m : ℕ → UInt8}, (∀ j < i + n, (structuredGdt j).Accepted) →
    Meets r (gdtStructuredToGdtLoop gdt structuredGdt n i) m fun _ m' =>
      (∀ j, i ≤ j → j < i + n → segmentAt m' (gdt + j * 8) = (structuredGdt j).segment) ∧
      ∀ a, a < gdt + i * 8 ∨ gdt + (i + n) * 8 ≤ a → m' a = m a
  | 0, i, m, _ => Meets.pure_iff.mpr ⟨fun j hi hj => absurd hj (by omega), fun _ _ => rfl⟩
  | n + 1, i, m, h => by
    rw [gdtStructuredToGdtLoop]
    refine .bind (encodeGdtEntry_meets (h i (by omega))) fun _ m₁ ⟨hentry, hframe⟩ => ?_
    refine (gdtStructuredToGdtLoop_meets fun j hj => h j (by omega)).mono ?_
    rintro _ m' ⟨hrest, hframe'⟩
    refine ⟨fun j hi hj => ?_, fun a ha => ?_⟩
    · rcases Nat.eq_or_lt_of_le hi with rfl | hlt
      · rw [← hentry]
        exact segmentAt_congr fun x hx => hframe' _ (by omega)
      · exact hrest j hlt (by omega)
    · rw [hframe' a (by omega), hframe a (by omega)]

end Entry

/-- The processor reads every element back from the table, nothing around the table has changed,
and another element put into it changes no other. -/
theorem gdtStructuredToGdt_decodes {gdt n : ℕ} {structuredGdt : ℕ → GdtStructured}
    (h : ∀ i < n, (structuredGdt i).Accepted) (m : ℕ → UInt8) :
    ∃ m', gdtStructuredToGdt gdt structuredGdt n m = some ((), m') ∧
      (∀ i < n, segmentAt m' (gdt + i * 8) = (structuredGdt i).segment) ∧
      (∀ a, a < gdt ∨ gdt + n * 8 ≤ a → m' a = m a) ∧
      ∀ i < n, ∀ source : GdtStructured, source.Accepted →
        ∃ m'', encodeGdtEntry (gdt + i * 8) source m' = some ((), m'') ∧
          segmentAt m'' (gdt + i * 8) = source.segment ∧
          ∀ j < n, j ≠ i → ∀ x < 8, m'' (gdt + j * 8 + x) = m' (gdt + j * 8 + x) := by
  have htable : Meets True (gdtStructuredToGdt gdt structuredGdt n) m _ :=
    gdtStructuredToGdtLoop_meets fun j hj => h j (by omega)
  obtain ⟨_, m', hrun, hread, hframe⟩ := htable.exists_result
  refine ⟨m', hrun, fun i hi => hread i (Nat.zero_le i) (by omega), fun a ha => hframe a (by omega),
    fun i hi source hsource => ?_⟩
  have hentry : Meets True (encodeGdtEntry (gdt + i * 8) source) m' _ :=
    encodeGdtEntry_meets hsource
  obtain ⟨_, m'', hrun', hread', hframe'⟩ := hentry.exists_result
  exact ⟨m'', hrun', hread', fun j hj hne x hx => hframe' _ (by omega)⟩

theorem kernelGdtStructured_accepted (tss : UInt32) :
    ∀ i < 6, (kernelGdtStructured tss i).Accepted := by
  intro i hi
  interval_cases i
  · exact .inl (show (0 : UInt32) ≤ 65536 by decide)
  iterate 4 exact .inr (show (0xffffffff : UInt32) &&& 0xFFF = 0xFFF by decide)
  · exact .inl (show (100 : UInt32) ≤ 65536 by decide)

/-- The table of the kernel. -/
theorem gdtStructuredToGdt_decodes_kernel : ∃ m',
    gdtStructuredToGdt 0x106000 (kernelGdtStructured 0x105000) (6 : ℕ) (fun _ => 0) =
      some ((), m') ∧
      (∀ i < 6, segmentAt m' (0x106000 + i * 8) = (kernelGdtStructured 0x105000 i).segment) ∧
      (∀ a, a < 0x106000 ∨ 0x106000 + 6 * 8 ≤ a → m' a = 0) ∧
      ∀ i < 6, ∀ source : GdtStructured, source.Accepted →
        ∃ m'', encodeGdtEntry (0x106000 + i * 8) source m' = some ((), m'') ∧
          segmentAt m'' (0x106000 + i * 8) = source.segment ∧
          ∀ j < 6, j ≠ i → ∀ x < 8, m'' (0x106000 + j * 8 + x) = m' (0x106000 + j * 8 + x) :=
  gdtStructuredToGdt_decodes (kernelGdtStructured_accepted 0x105000) fun _ => 0

end Hyperion
