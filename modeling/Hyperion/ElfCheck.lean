import Hyperion.Elf
import Hyperion.FatStreams

/-!
# What the ELF loader accepts

The loader looks at four things, the signature, the class, the encoding and whether there is
a program header table, and at nothing else : not at how long the file is, nor at its type
and entry point, nor at where its segments lie in it. `elfLoad_sound_iff` says which files
it reads within and takes rightly.

Two things can go wrong. The loader may look at bytes that are not in the file, which it does when
the file is shorter than the checks reach (`LongEnough`) or has a program header outside (`Fit`).
Every function has a lemma on where it looks, `elfValidateLoaded_inside` for the checks and
`elfProcessPheadersLoop_inside` for the headers. And the file may not be what it was taken for :
`Sound` is a 32-bit little-endian executable whose headers and segments are in the file.

The functions of the loader are on memory, the conditions on the content of the file. The lemmas
`_value` go from the one to the other, for a file that was read to a buffer of its own
(`elfRead_meets`). `elfLoad_content` puts them together, and says that `elf_load` answers what the
checks say of the content. A file of 52 bytes whose header is said to lie a gigabyte away is
accepted (`elfLoad_far`).
-/

namespace Hyperion

open Partial

/-! ## Files -/

/-- The byte function of what lies from `b` on. -/
def bytesFrom (m : ℕ → UInt8) (b : ℕ) : ℕ → UInt8 := fun i => m (b + i)

namespace ElfBytes

variable (d : ℕ → UInt8)

/-- `e_phoff`. -/
def phoff : ℕ := word32 d 28

/-- `e_phnum`. -/
def phnum : ℕ := word16 d 44

/-- Where program header `i` starts. -/
def phdr (i : ℕ) : ℕ := phoff d + phdrSize * i

/-- The four bytes of the magic number. -/
def signatureOk : Prop := ∀ i < 4, d i = elfSignature.getD i 0

/-- `ELFCLASSNONE` or `ELFCLASS32`. -/
def classOk : Prop := d 4 = 0 ∨ d 4 = 1

/-- `ELFDATANONE` or `ELFDATA2LSB`. -/
def encodingOk : Prop := d 5 = 0 ∨ d 5 = 1

/-- The four checks that are made. -/
def Checked : Prop := signatureOk d ∧ classOk d ∧ encodingOk d ∧ phoff d ≠ 0

instance : Decidable (Checked d) :=
  inferInstanceAs (Decidable ((∀ i < 4, d i = elfSignature.getD i 0) ∧ (d 4 = 0 ∨ d 4 = 1) ∧
    (d 5 = 0 ∨ d 5 = 1) ∧ phoff d ≠ 0))

/-- A 32-bit little-endian executable of `n` bytes, with each of its program headers in the
file, and the end of each segment. `p_offset` is signed. Where a file has no program headers it
does not matter where they would start. -/
structure Sound (n : ℕ) : Prop where
  class32 : d 4 = 1
  lsb : d 5 = 1
  exec : word16 d 16 = etExec
  entry : programVirtualAddress ≤ word32 d 24
  headers : ∀ i < phnum d, phdr d i + phdrSize ≤ n
  segments : ∀ i < phnum d, word32 d (phdr d i) = ptLoad →
    asSigned (word32 d (phdr d i + 4)) + word32 d (phdr d i + 16) ≤ n

instance (n : ℕ) : Decidable (Sound d n) :=
  decidable_of_iff (d 4 = 1 ∧ d 5 = 1 ∧ word16 d 16 = etExec ∧ programVirtualAddress ≤ word32 d 24 ∧
      (∀ i < phnum d, phdr d i + phdrSize ≤ n) ∧ ∀ i < phnum d, word32 d (phdr d i) = ptLoad →
        asSigned (word32 d (phdr d i + 4)) + word32 d (phdr d i + 16) ≤ n)
    ⟨fun h => ⟨h.1, h.2.1, h.2.2.1, h.2.2.2.1, h.2.2.2.2.1, h.2.2.2.2.2⟩,
      fun h => ⟨h.class32, h.lsb, h.exec, h.entry, h.headers, h.segments⟩⟩

/-- A file of `n` bytes has those that the checks look at, up to the first that fails. -/
structure LongEnough (n : ℕ) : Prop where
  signature : ∀ i < 4, (∀ j < i, d j = elfSignature.getD j 0) → i < n
  class_ : signatureOk d → 4 < n
  encoding : signatureOk d → classOk d → 5 < n
  header : signatureOk d → classOk d → encodingOk d → 32 ≤ n

/-- The file has the bytes that the checks look at, and if it passes them it has a whole
header and is all that was not checked. -/
structure Fit (n : ℕ) : Prop where
  long : LongEnough d n
  sound : Checked d → 46 ≤ n ∧ Sound d n

end ElfBytes

/-! ## The checks -/

section Checks

open ElfBytes

variable {m : ℕ → UInt8} {b n lo : ℕ}

@[simp] theorem value_word32 (a : ℕ) : Probe.value (Probe.word32 a) m = word32 m a := rfl

@[simp] theorem value_word16 (a : ℕ) : Probe.value (Probe.word16 a) m = word16 m a := rfl

/-- A byte that is the same is passed. -/
theorem memcmp_cons_same {a : ℕ} {c : UInt8} {s2 : List UInt8} (h : m a = c) :
    memcmp a (c :: s2) m = ((memcmp (a + 1) s2 m).1, a :: (memcmp (a + 1) s2 m).2) := by
  show (Probe.byte a >>= fun b => if b ≠ c then _ else memcmp (a + 1) s2 : Probe Int) m = _
  show ((ite (m a ≠ c) _ (memcmp (a + 1) s2) : Probe Int) m |>.1,
    a :: ((ite (m a ≠ c) _ (memcmp (a + 1) s2) : Probe Int) m).2) = _
  rw [if_neg (not_not.mpr h)]

/-- At a byte that differs the comparison ends. -/
theorem memcmp_cons_differ {a : ℕ} {c : UInt8} {s2 : List UInt8} (h : m a ≠ c) :
    (memcmp a (c :: s2) m).1 ≠ 0 ∧ (memcmp a (c :: s2) m).2 = [a] := by
  unfold memcmp
  show ((ite (m a ≠ c) _ (memcmp (a + 1) s2) : Probe Int) m).1 ≠ 0 ∧
    a :: ((ite (m a ≠ c) _ (memcmp (a + 1) s2) : Probe Int) m).2 = [a]
  rw [if_pos h]
  refine ⟨?_, rfl⟩
  show (if _ then (-1 : Int) else 1) ≠ 0
  split_ifs <;> decide

/-- `memcmp` answers 0 exactly when the bytes are the same. -/
theorem memcmp_value : ∀ (s2 : List UInt8) (a : ℕ),
    (memcmp a s2).value m = 0 ↔ ∀ i < s2.length, m (a + i) = s2.getD i 0
  | [], a => iff_of_true rfl fun i hi => absurd hi (Nat.not_lt_zero i)
  | c :: s2, a => by
    by_cases hc : m a = c
    · have htail : (memcmp a (c :: s2)).value m = (memcmp (a + 1) s2).value m := by
        rw [Probe.value, memcmp_cons_same hc, Probe.value]
      rw [htail, memcmp_value s2 (a + 1)]
      constructor
      · rintro h (_ | i) hi
        · exact hc
        · rw [← Nat.add_assoc, Nat.add_right_comm]
          exact h i (Nat.lt_of_succ_lt_succ hi)
      · intro h i hi
        rw [Nat.add_right_comm]
        exact h (i + 1) (Nat.succ_lt_succ hi)
    · exact iff_of_false (memcmp_cons_differ hc).1 fun h => hc (h 0 (Nat.succ_pos _))

/-- It looks at a byte when all before it are the same. -/
theorem memcmp_inside : ∀ (s2 : List UInt8) (a : ℕ),
    (memcmp a s2).Inside lo n m ↔ ∀ i < s2.length, (∀ j < i, m (a + j) = s2.getD j 0) →
      lo ≤ a + i ∧ a + i < lo + n
  | [], a => iff_of_true (fun _ h => nomatch h) fun i hi => absurd hi (Nat.not_lt_zero i)
  | c :: s2, a => by
    by_cases hc : m a = c
    · have hreads : (memcmp a (c :: s2)).reads m = a :: (memcmp (a + 1) s2).reads m := by
        rw [Probe.reads, memcmp_cons_same hc, Probe.reads]
      unfold Probe.Inside
      rw [hreads, List.forall_mem_cons]
      refine (and_congr_right fun _ => memcmp_inside s2 (a + 1)).trans ⟨?_, fun h => ⟨?_, ?_⟩⟩
      · rintro ⟨h0, h⟩ (_ | i) hi hsame
        · exact h0
        · have := h i (Nat.lt_of_succ_lt_succ hi) fun j hj => by
            rw [Nat.add_right_comm]
            exact hsame (j + 1) (Nat.succ_lt_succ hj)
          omega
      · exact h 0 (Nat.succ_pos _) fun j hj => absurd hj (Nat.not_lt_zero j)
      · intro i hi hsame
        have := h (i + 1) (Nat.succ_lt_succ hi) fun j hj => by
          rcases j with _ | j
          · exact hc
          · rw [← Nat.add_assoc, Nat.add_right_comm]
            exact hsame j (Nat.lt_of_succ_lt_succ hj)
        omega
    · have hreads : (memcmp a (c :: s2)).reads m = [a] := (memcmp_cons_differ hc).2
      unfold Probe.Inside
      rw [hreads, List.forall_mem_singleton]
      constructor
      · rintro h0 (_ | i) hi hsame
        · exact h0
        · exact absurd (hsame 0 (Nat.succ_pos _)) hc
      · intro h
        exact h 0 (Nat.succ_pos _) fun j hj => absurd hj (Nat.not_lt_zero j)

/-- The comparison is of the signature. -/
theorem elfValidSignature_value :
    (elfValidSignature b).value m = true ↔ signatureOk (bytesFrom m b) :=
  decide_eq_true_iff.trans (memcmp_value elfSignature b)

/-- The class that is checked. -/
theorem elfValidClass_value : (elfValidClass b).value m = true ↔ classOk (bytesFrom m b) :=
  decide_eq_true_iff

/-- The encoding that is checked. -/
theorem elfValidEncoding_value :
    (elfValidEncoding b).value m = true ↔ encodingOk (bytesFrom m b) :=
  decide_eq_true_iff

/-- Words of the file are words of the memory. -/
theorem word32_bytesFrom (a : ℕ) : word32 (bytesFrom m b) a = word32 m (b + a) := by
  simp only [word32, bytesFrom, Nat.add_assoc]

/-- And half words. -/
theorem word16_bytesFrom (a : ℕ) : word16 (bytesFrom m b) a = word16 m (b + a) := by
  simp only [word16, bytesFrom, Nat.add_assoc]

/-- `e_phoff` in the memory. -/
theorem ePhoff_value : (ePhoff b).value m = phoff (bytesFrom m b) := by
  rw [phoff, word32_bytesFrom]
  exact value_word32 (b + 28)

/-- There are program headers unless `e_phoff` is zero. -/
theorem elfHasProgramHeader_value :
    (elfHasProgramHeader b).value m = true ↔ phoff (bytesFrom m b) ≠ 0 := by
  rw [elfHasProgramHeader, Probe.value_bind, Probe.value_pure, ePhoff_value]
  exact decide_eq_true_iff

/-- What passes the four checks is accepted. -/
theorem elfValidateLoaded_value :
    (Checked (bytesFrom m b) ∧ (elfValidateLoaded b).value m = 0) ∨
      (¬Checked (bytesFrom m b) ∧ (elfValidateLoaded b).value m = -EINFORMAT) := by
  simp only [elfValidateLoaded, Probe.value_guard, Probe.value_pure]
  split_ifs with hs hc he hp
  · exact .inl ⟨⟨elfValidSignature_value.mp hs, elfValidClass_value.mp hc,
      elfValidEncoding_value.mp he, elfHasProgramHeader_value.mp hp⟩, rfl⟩
  · exact .inr ⟨fun h => hp (elfHasProgramHeader_value.mpr h.2.2.2), rfl⟩
  · exact .inr ⟨fun h => he (elfValidEncoding_value.mpr h.2.2.1), rfl⟩
  · exact .inr ⟨fun h => hc (elfValidClass_value.mpr h.2.1), rfl⟩
  · exact .inr ⟨fun h => hs (elfValidSignature_value.mpr h.1), rfl⟩

/-- The comparison reads as far as the bytes agree. -/
theorem elfValidSignature_inside : (elfValidSignature b).Inside b n m ↔
    ∀ i < 4, (∀ j < i, bytesFrom m b j = elfSignature.getD j 0) → i < n := by
  rw [elfValidSignature, Probe.inside_bind, memcmp_inside]
  constructor
  · rintro ⟨h, -⟩ i hi hsame
    have := h i hi hsame
    omega
  · intro h
    refine ⟨fun i hi hsame => ?_, Probe.inside_pure _⟩
    have := h i hi hsame
    omega

/-- The class is byte 4. -/
theorem elfValidClass_inside : (elfValidClass b).Inside b n m ↔ 4 < n := by
  simp only [elfValidClass, eClass, Probe.inside_bind, Probe.inside_byte, Probe.inside_pure,
    and_true]
  omega

/-- The encoding is byte 5. -/
theorem elfValidEncoding_inside : (elfValidEncoding b).Inside b n m ↔ 5 < n := by
  simp only [elfValidEncoding, eData, Probe.inside_bind, Probe.inside_byte, Probe.inside_pure,
    and_true]
  omega

/-- `e_phoff` ends at byte 32. -/
theorem elfHasProgramHeader_inside : (elfHasProgramHeader b).Inside b n m ↔ 32 ≤ n := by
  simp only [elfHasProgramHeader, ePhoff, Probe.inside_bind, Probe.inside_word32,
    Probe.inside_pure, and_true]
  omega

/-- The checks read inside the file exactly when it is long enough. -/
theorem elfValidateLoaded_inside :
    (elfValidateLoaded b).Inside b n m ↔ LongEnough (bytesFrom m b) n := by
  simp only [elfValidateLoaded, Probe.inside_guard, elfValidSignature_value, elfValidClass_value,
    elfValidEncoding_value, elfValidSignature_inside, elfValidClass_inside,
    elfValidEncoding_inside, elfHasProgramHeader_inside, Probe.inside_pure, implies_true,
    and_true]
  constructor
  · rintro ⟨hs, hc⟩
    exact ⟨hs, fun h1 => (hc h1).1, fun h1 h2 => ((hc h1).2 h2).1,
      fun h1 h2 h3 => ((hc h1).2 h2).2 h3⟩
  · intro h
    exact ⟨h.signature, fun h1 => ⟨h.class_ h1, fun h2 => ⟨h.encoding h1 h2,
      fun h3 => h.header h1 h2 h3⟩⟩⟩

/-! ## The program headers -/

/-- Where the program headers are, when there are some. -/
theorem elfPheader_value (hoff : phoff (bytesFrom m b) ≠ 0) :
    (elfPheader b).value m = (b + phoff (bytesFrom m b)) % 4294967296 := by
  rw [elfPheader, Probe.value_bind, ePhoff_value, if_neg hoff, Probe.value_pure]

/-- A header that starts inside the file with its whole length is where `elf_program_header`
says. -/
theorem elfProgramHeader_value {i : ℕ} (hoff : phoff (bytesFrom m b) ≠ 0)
    (hfit : b + phdr (bytesFrom m b) i < 4294967296) :
    (elfProgramHeader b i).value m = b + phdr (bytesFrom m b) i := by
  rw [elfProgramHeader, Probe.value_bind, elfPheader_value hoff, Probe.value_pure]
  unfold phdr at hfit ⊢
  rw [Nat.mod_add_mod, ← Nat.add_assoc] at *
  exact Nat.mod_eq_of_lt hfit

/-- To find a program header only `e_phoff` is read. -/
theorem elfProgramHeader_inside {i : ℕ} (hn : 32 ≤ n) :
    (elfProgramHeader b i).Inside b n m := by
  have hoff : (ePhoff b).Inside b n m := Probe.inside_word32.mpr (by omega)
  simp only [elfProgramHeader, elfPheader, Probe.inside_bind, Probe.inside_ite, hoff,
    Probe.inside_pure, implies_true, and_true]

/-- To process it, the header. -/
theorem elfProcessPheader_inside {file : ElfFile} {a : ℕ} (hlo : lo ≤ a)
    (ha : a + phdrSize ≤ lo + n) : (elfProcessPheader file a).Inside lo n m := by
  have hsize : phdrSize = 32 := rfl
  have hphys (file : ElfFile) : (elfPhdrPhysAddress file a).Inside lo n m := by
    simp only [elfPhdrPhysAddress, pOffset, Probe.inside_bind, Probe.inside_word32,
      Probe.inside_pure, and_true]
    omega
  have h0 : (pType a).Inside lo n m := Probe.inside_word32.mpr (by omega)
  have h8 : (pVaddr a).Inside lo n m := Probe.inside_word32.mpr (by omega)
  have h16 : (pFilesz a).Inside lo n m := Probe.inside_word32.mpr (by omega)
  simp only [elfProcessPheader, elfProcessPhdrPtLoad, Probe.inside_bind, Probe.inside_ite,
    Probe.inside_pure, h0, h8, h16, hphys, implies_true, and_true]

/-- Header by header : those from number `i` on are read inside the file. -/
theorem elfProcessPheadersLoop_inside (hn : 32 ≤ n) (hmem : b + n ≤ 4294967296)
    (hoff : phoff (bytesFrom m b) ≠ 0) : ∀ (fuel i : ℕ) (file : ElfFile),
    (∀ j < fuel, phdr (bytesFrom m b) (i + j) + phdrSize ≤ n) →
      (elfProcessPheadersLoop b fuel i file).Inside b n m
  | 0, _, _, _ => Probe.inside_pure _
  | fuel + 1, i, file, hfit => by
    have hwhole : phdr (bytesFrom m b) i + phdrSize ≤ n := hfit 0 (Nat.succ_pos fuel)
    have hpos : 0 < phdrSize := by decide
    have hfit' (j : ℕ) (hj : j < fuel) : phdr (bytesFrom m b) (i + 1 + j) + phdrSize ≤ n := by
      rw [Nat.add_assoc, Nat.add_comm 1 j]
      exact hfit (j + 1) (Nat.succ_lt_succ hj)
    rw [elfProcessPheadersLoop, Probe.inside_bind, Probe.inside_bind,
      elfProgramHeader_value hoff (by omega)]
    exact ⟨elfProgramHeader_inside hn, elfProcessPheader_inside (by omega) (by omega),
      elfProcessPheadersLoop_inside hn hmem hoff fuel (i + 1) _ hfit'⟩

/-- What a loaded file is answered with, and where it is looked at. -/
theorem elfProcessLoaded_value {file : ElfFile} :
    0 ≤ ((elfProcessLoaded file).value m).1 ↔ Checked (bytesFrom m file.elfMemory) := by
  rcases elfValidateLoaded_value (m := m) (b := file.elfMemory) with ⟨hck, hv⟩ | ⟨hck, hv⟩
  · simp [elfProcessLoaded, hv, hck]
  · simp [elfProcessLoaded, hv, hck, show 0 < EINFORMAT by decide]

/-- In a file that fits, nothing outside is read. -/
theorem elfProcessLoaded_inside {file : ElfFile} (hmem : file.elfMemory + n ≤ 4294967296)
    (hfit : Fit (bytesFrom m file.elfMemory) n) :
    (elfProcessLoaded file).Inside file.elfMemory n m := by
  have hlong := elfValidateLoaded_inside.mpr hfit.long
  rcases elfValidateLoaded_value (m := m) (b := file.elfMemory) with ⟨hck, hv⟩ | ⟨hck, hv⟩
  · obtain ⟨hn, hsound⟩ := hfit.sound hck
    have hnum : (ePhnum file.elfMemory).Inside file.elfMemory n m :=
      Probe.inside_word16.mpr (by omega)
    have hloop := elfProcessPheadersLoop_inside (by omega) hmem hck.2.2.2
      ((ePhnum file.elfMemory).value m) 0 file (by
        have hval : (ePhnum file.elfMemory).value m = phnum (bytesFrom m file.elfMemory) := by
          rw [phnum, word16_bytesFrom]
          exact value_word16 _
        rw [hval]
        intro j hj
        rw [Nat.zero_add]
        exact hsound.headers j hj)
    simp only [elfProcessLoaded, elfProcessPheaders, Probe.inside_bind, hlong, hv, hnum, hloop,
      Probe.inside_ite, Probe.inside_pure, implies_true, and_true]
  · simp only [elfProcessLoaded, Probe.inside_bind, hlong, hv, Probe.inside_ite,
      Probe.inside_pure, implies_true, true_and]
    exact fun h => absurd (by decide : -EINFORMAT < 0) h

/-- When the checks are passed the number of headers is read. -/
theorem elfProcessLoaded_inside_phnum {file : ElfFile} (hck : Checked (bytesFrom m file.elfMemory))
    (h : (elfProcessLoaded file).Inside file.elfMemory n m) : 46 ≤ n := by
  have hv : (elfValidateLoaded file.elfMemory).value m = 0 := by
    rcases elfValidateLoaded_value (m := m) (b := file.elfMemory) with ⟨-, hv⟩ | ⟨hno, -⟩
    · exact hv
    · exact absurd hck hno
  simp only [elfProcessLoaded, elfProcessPheaders, Probe.inside_bind, hv, Probe.inside_ite] at h
  have hnum : (ePhnum file.elfMemory).Inside file.elfMemory n m := (h.2.2 (lt_irrefl 0)).1.1
  have := Probe.inside_word16.mp hnum
  omega

end Checks

/-! ## Loading -/

/-- What is read of the file before any of it is looked at : its size and its bytes. -/
def elfContent (filename : List UInt8) : KernelM (Option (ℕ × (ℕ → UInt8))) := do
  let self ← kzalloc 132
  let fd ← fopen filename [114]
  if fd ≤ 0 then return none
  match ← elfRead self fd with
  | .error _ => return none
  | .ok (elfMemory, size) =>
    let k ← get
    return some (size, bytesFrom k.mem elfMemory)

/-- The headers were read inside the buffer, and a file that is accepted is sound. -/
structure ElfLoaded.Right (r : ElfLoaded) (m : ℕ → UInt8) : Prop where
  inside : ∀ look ∈ r.look, ∀ a ∈ look.reads, look.buffer ≤ a ∧ a < look.buffer + look.size
  sound : 0 ≤ r.res → ∃ look ∈ r.look, ElfBytes.Sound (bytesFrom m look.buffer) look.size

section Load

open ElfBytes

variable {k k' : Kernel} {filename : List UInt8} {r : ElfLoaded} {self p size : ℕ} {fd : Int}

/-- To free writes nothing. -/
theorem kfree_mem : Unchanged Kernel.mem (kfree p) := .modify fun _ => rfl

/-- To free a directory does not either. -/
theorem fat16FreeDirectory_mem (u : FatItemUnion) :
    Unchanged Kernel.mem (fat16FreeDirectory u) := by
  cases u with
  | null => exact .pure _
  | item p bytes => exact .fault
  | directory p d =>
    rw [fat16FreeDirectory]
    exact .ite (.bind kfree_mem fun _ => kfree_mem) kfree_mem

/-- Nor does it to free an item. -/
theorem fat16FatItemFree_mem (item : FatItem) : Unchanged Kernel.mem (fat16FatItemFree item) := by
  obtain ⟨self, union, type⟩ := item
  cases type with
  | directory => exact .bind (fat16FreeDirectory_mem union) fun _ => kfree_mem
  | file => cases union with
    | null => exact .bind kfree_mem fun _ => kfree_mem
    | item p bytes => exact .bind kfree_mem fun _ => kfree_mem
    | directory p d => exact .bind kfree_mem fun _ => kfree_mem

/-- Closing a file leaves the memory. -/
theorem fclose_mem : Unchanged Kernel.mem (fclose fd) := by
  refine .bind fileGetDescriptor_unchanged fun desc => ?_
  cases desc with
  | none => exact .pure _
  | some desc =>
    refine .bind (.bind (fat16FatItemFree_mem _) fun _ => .bind kfree_mem fun _ => .pure _) ?_
    intro res
    refine .ite (.bind (.bind (.modify fun _ => rfl) fun _ => kfree_mem) fun _ => .pure _) ?_
    exact .pure _

/-- What is allocated ends within the address space. -/
theorem kzalloc_le (h : kzalloc size k = some (p, k')) (hp : p ≠ 0) : p + size ≤ 4294967296 := by
  obtain ⟨q, k₁, -, h⟩ := bind_eq_some.mp h
  split_ifs at h with hq hbig
  · cases h
    exact absurd rfl hp
  · cases h
  · cases h
    omega

/-- A file that could not be read has an error code, and one that was read fits in the
address space. -/
theorem elfRead_meets : Meets False (elfRead self fd) k fun res _ =>
    (∀ e, res = .error e → e < 0) ∧ ∀ b n, res = .ok (b, n) → b + n ≤ 4294967296 := by
  refine .bind .self fun ⟨res, stat⟩ k₁ _ => ?_
  simp only [Meets.ite_iff, Meets.bind_iff, Meets.pure_iff, Meets.fault_iff]
  refine ⟨fun hneg => ⟨fun e he => ?_, by simp⟩, fun _ => ⟨fun _ => not_false, fun _ => ?_⟩⟩
  · cases he
    exact hneg
  · refine Meets.self.mono fun p k₂ hp => Meets.self.mono fun res k₃ _ => ?_
    refine ⟨fun hneg => ⟨fun e he => ?_, by simp⟩, fun _ => ⟨fun _ => not_false, fun hp0 => ?_⟩⟩
    · cases he
      exact hneg
    · refine ⟨by simp, fun b n he => ?_⟩
      cases he
      exact kzalloc_le hp hp0

/-- `elf_load` looks at what was read, and answers what the checks say. -/
theorem elfLoad_content (h : elfLoad filename k = some (r, k')) :
    ∃ content k₁, elfContent filename k = some (content, k₁) ∧
      ((content = none ∧ r.look = none ∧ r.res < 0) ∨
        ∃ file n, content = some (n, bytesFrom k'.mem file.elfMemory) ∧
          file.elfMemory + n ≤ 4294967296 ∧
          r.look = some ⟨file.elfMemory, n, (elfProcessLoaded file).reads k'.mem⟩ ∧
          r.res = ((elfProcessLoaded file).value k'.mem).1) := by
  obtain ⟨self, k₁, hself, h⟩ := bind_eq_some.mp h
  obtain ⟨fd, k₂, hfd, h⟩ := bind_eq_some.mp h
  have hstart : elfContent filename k = (do
      if fd ≤ 0 then return none
      match ← elfRead self fd with
      | .error _ => return none
      | .ok (elfMemory, size) =>
        let k ← get
        return some (size, bytesFrom k.mem elfMemory) : KernelM (Option (ℕ × (ℕ → UInt8)))) k₂ := by
    rw [elfContent, run_bind, hself, Option.bind_some, run_bind, hfd, Option.bind_some]
  rw [hstart]
  split_ifs at h ⊢ with hneg
  · obtain ⟨_, k₃, -, h⟩ := bind_eq_some.mp h
    cases h
    exact ⟨none, k₂, rfl, .inl ⟨rfl, rfl, by decide⟩⟩
  · obtain ⟨loaded, k₃, hopened, h⟩ := bind_eq_some.mp h
    obtain ⟨_, k₄, hclose, h⟩ := bind_eq_some.mp h
    cases h
    have hmem := fclose_mem _ _ _ hclose
    obtain ⟨read, k₅, hread, hopened⟩ := bind_eq_some.mp hopened
    rw [run_bind, hread, Option.bind_some]
    obtain ⟨herr, hok⟩ := elfRead_meets.of_eq hread
    cases read with
    | error res =>
      cases hopened
      exact ⟨none, _, rfl, .inl ⟨rfl, rfl, herr res rfl⟩⟩
    | ok bn =>
      obtain ⟨b, n⟩ := bn
      refine ⟨_, _, rfl, .inr ⟨⟨self, b, 0, 0, 0, 0⟩, n, ?_⟩⟩
      have hk₃ : k₃ = k₅ := by
        simp only [run_bind, run_get, Option.bind_some] at hopened
        split_ifs at hopened <;> cases hopened <;> rfl
      subst hk₃
      rw [hmem]
      refine ⟨rfl, hok b n rfl, ?_⟩
      simp only [run_bind, run_get, Option.bind_some] at hopened
      split_ifs at hopened <;> cases hopened <;> exact ⟨rfl, rfl⟩

/-- What `elf_load` reads and accepts is right exactly when the content of the file, if it
was read, has all that the checks look at and is all that they leave out. -/
theorem elfLoad_sound_iff (h : elfLoad filename k = some (r, k')) : r.Right k'.mem ↔
    ∀ n d, (elfContent filename k).map Prod.fst = some (some (n, d)) → Fit d n := by
  obtain ⟨content, k₁, hcontent, ⟨rfl, hlook, hneg⟩ | ⟨file, n, rfl, hmem, hlook, hres⟩⟩ :=
    elfLoad_content h
  · rw [hcontent]
    refine iff_of_true ⟨?_, fun hpos => absurd hneg (not_lt.mpr hpos)⟩ (by simp)
    rw [hlook]
    simp
  · rw [hcontent]
    have hone : (∀ n' d, (some (some (n, bytesFrom k'.mem file.elfMemory)) :
        Option (Option (ℕ × (ℕ → UInt8)))) = some (some (n', d)) → Fit d n') ↔
          Fit (bytesFrom k'.mem file.elfMemory) n := by
      refine ⟨fun h => h n _ rfl, fun h n' d he => ?_⟩
      cases he
      exact h
    rw [Option.map_some, hone]
    constructor
    · intro hright
      have hin : (elfProcessLoaded file).Inside file.elfMemory n k'.mem := hright.inside _ hlook
      rw [elfProcessLoaded, Probe.inside_bind] at hin
      refine ⟨elfValidateLoaded_inside.mp hin.1, fun hck => ?_⟩
      obtain ⟨look, hlook', hsound⟩ :=
        hright.sound (by rw [hres, elfProcessLoaded_value]; exact hck)
      rw [hlook] at hlook'
      cases hlook'
      exact ⟨elfProcessLoaded_inside_phnum hck (hright.inside _ hlook), hsound⟩
    · intro hfit
      refine ⟨fun look hlook' => ?_, fun hpos => ?_⟩
      · rw [hlook] at hlook'
        cases hlook'
        exact elfProcessLoaded_inside hmem hfit
      · rw [hres, elfProcessLoaded_value] at hpos
        exact ⟨_, hlook, (hfit.sound hpos).2⟩

/-- The volume with the file `A` of `n` bytes. -/
def elfKernel (n : UInt8) (data : List UInt8) : Kernel :=
  smallKernel ((fileEntry 65).set 28 n) data

/-- A header whose one program header is said to lie `2 ^ 30` bytes from the start. -/
def farHeader : List UInt8 :=
  [0x7f, 69, 76, 70, 1, 1, 1, 0, 0, 0, 0, 0, 0, 0, 0, 0, 2, 0, 3, 0, 1, 0, 0, 0, 0, 0, 0x40, 0,
    0, 0, 0, 0x40, 0, 0, 0, 0, 0, 0, 0, 0, 52, 0, 32, 0, 1, 0, 0, 0, 0, 0, 0, 0]

/-- The header with its one program header behind it : a segment of the whole file. -/
def nearHeader : List UInt8 :=
  (farHeader.set 28 52).set 31 0 ++ [1, 0, 0, 0, 0, 0, 0, 0, 0, 0, 0x40, 0, 0, 0, 0, 0, 84, 0, 0, 0,
    84, 0, 0, 0, 5, 0, 0, 0, 0, 16, 0, 0]

/-- An executable of one segment is accepted. -/
theorem elfLoad_sound_near : ∃ k r k', diskSearchAndInit (elfKernel 84 nearHeader) = some ((), k) ∧
    elfLoad smallPath k = some (r, k') ∧ r.res = 0 ∧ r.Right k'.mem := by
  have h : ((diskSearchAndInit (elfKernel 84 nearHeader)).map fun x =>
      ((elfLoad smallPath x.2).map fun y => y.1.res,
        (elfContent smallPath x.2).map fun y => y.1.map fun c =>
          (c.1, decide (Sound c.2 84)))) = some (some 0, some (some (84, true))) := by
    decide +kernel
  obtain ⟨⟨_, k⟩, hmount, hx⟩ := Option.map_eq_some_iff.mp h
  obtain ⟨hload, hcontent⟩ := Prod.mk.inj hx
  obtain ⟨⟨r, k'⟩, hload, hres⟩ := Option.map_eq_some_iff.mp hload
  obtain ⟨⟨_, k₁⟩, hcontent, hc⟩ := Option.map_eq_some_iff.mp hcontent
  obtain ⟨⟨n, d⟩, rfl, hnd⟩ := Option.map_eq_some_iff.mp hc
  obtain ⟨rfl, hd⟩ := Prod.mk.inj hnd
  refine ⟨k, r, k', hmount, hload, hres, (elfLoad_sound_iff hload).mpr fun n d' he => ?_⟩
  rw [hcontent] at he
  cases he
  exact ⟨⟨fun i hi _ => lt_trans hi (by decide), fun _ => by decide, fun _ _ => by decide,
    fun _ _ _ => by decide⟩, fun _ => ⟨by decide, of_decide_eq_true hd⟩⟩

/-- The header of a file of 52 bytes is read a gigabyte away, and the file is accepted. -/
theorem elfLoad_far : ∃ k r k', diskSearchAndInit (elfKernel 52 farHeader) = some ((), k) ∧
    elfLoad smallPath k = some (r, k') ∧ r.res = 0 ∧ ¬r.Right k'.mem := by
  have h : ((diskSearchAndInit (elfKernel 52 farHeader)).map fun x =>
      (elfLoad smallPath x.2).map fun y => (y.1.res, y.1.look.map fun look =>
        decide (∀ a ∈ look.reads, look.buffer ≤ a ∧ a < look.buffer + look.size))) =
          some (some (0, some false)) := by
    decide +kernel
  obtain ⟨⟨_, k⟩, hmount, hx⟩ := Option.map_eq_some_iff.mp h
  obtain ⟨⟨r, k'⟩, hload, hx⟩ := Option.map_eq_some_iff.mp hx
  obtain ⟨hres, hlook⟩ := Prod.mk.inj hx
  obtain ⟨look, hlook, hout⟩ := Option.map_eq_some_iff.mp hlook
  exact ⟨k, r, k', hmount, hload, hres,
    fun hright => of_decide_eq_false hout (hright.inside look hlook)⟩

end Load

end Hyperion
