import Hyperion.Fat16

/-!
# 8.3 names

A name of at most eight bytes and an extension of at most three, each padded with spaces to
the width of its field. `fat16_to_proper_string` stops at a space or a NUL only, so it runs
out of a field that is full, and the name is right exactly if the byte behind such a field
stops it (`fat16GetFullRelativeFilename_decodes_iff`).

`ShortName.entry` is the entry with everything behind its fields given, the attributes and the bytes
after them, and `ShortName.full` the name as it is written. Behind the extension come the
attributes, so that a full extension is right only if the attributes are a byte that stops a name.
Behind a full name comes the extension, which stops it only if there is none. The name
`ABCDEFGH.TXT` with the archive attribute is decoded to `ABCDEFGHTXT.TXT`
(`fat16GetFullRelativeFilename_not_always_decodes`).
-/

namespace Hyperion

/-! ## Names and their entries -/

/-- The byte ends a name. -/
def Stops (c : UInt8) : Prop := c = 0 ∨ c = 0x20

instance : DecidablePred Stops := fun _ => inferInstanceAs (Decidable (_ ∨ _))

structure ShortName where
  filename : List UInt8
  extension : List UInt8
  filename_pos : 1 ≤ filename.length
  filename_le : filename.length ≤ 8
  extension_le : extension.length ≤ 3
  filename_bytes : ∀ c ∈ filename, ¬Stops c
  extension_bytes : ∀ c ∈ extension, ¬Stops c

/-- A field of `width` bytes. -/
def padded (width : ℕ) (s : List UInt8) : List UInt8 := s ++ List.replicate (width - s.length) 0x20

namespace ShortName

variable (name : ShortName)

/-- An entry with this name and these attributes, and all that lies behind them. -/
def entry (attributes : UInt8) (rest : List UInt8) : List UInt8 :=
  padded 8 name.filename ++ (padded 3 name.extension ++ attributes :: rest)

/-- The name as it is written. -/
def full : List UInt8 :=
  if name.extension = [] then name.filename else name.filename ++ 46 :: name.extension

end ShortName

/-! ## Fields -/

theorem length_padded {width : ℕ} {s : List UInt8} (h : s.length ≤ width) :
    (padded width s).length = width := by
  simp [padded, h]

theorem padded_of_eq {width : ℕ} {s : List UInt8} (h : s.length = width) : padded width s = s := by
  simp [padded, h]

/-- Behind a text that does not fill its field comes a space. -/
theorem padded_of_lt {width : ℕ} {s : List UInt8} (h : s.length < width) :
    ∃ spaces, padded width s = s ++ 0x20 :: spaces := by
  obtain ⟨n, hn⟩ : ∃ n, width - s.length = n + 1 := ⟨width - s.length - 1, by omega⟩
  exact ⟨List.replicate n 0x20, by rw [padded, hn, List.replicate_succ]⟩

section Copy

variable {s out bs r : List UInt8} {c : UInt8}

theorem fat16ToProperString_stop (hc : Stops c) (hout : out.length < maxPath) :
    fat16ToProperString (c :: bs) out = some out := by
  rw [fat16ToProperString]
  rcases hc with rfl | rfl
  · rfl
  · rw [if_neg (by decide), if_neg (not_le.mpr hout), if_pos rfl]

theorem fat16ToProperString_step (hc : ¬Stops c) (hout : out.length < maxPath) :
    fat16ToProperString (c :: bs) out = fat16ToProperString bs (out ++ [c]) := by
  rw [fat16ToProperString, if_neg fun h => hc (.inl h), if_neg (not_le.mpr hout),
    if_neg fun h => hc (.inr h)]

/-- A text that something stops is copied whole. -/
theorem fat16ToProperString_field (hs : ∀ c ∈ s, ¬Stops c) (hc : Stops c)
    (hlen : out.length + s.length < maxPath) :
    fat16ToProperString (s ++ c :: bs) out = some (out ++ s) := by
  induction s generalizing out with
  | nil =>
    rw [List.nil_append, fat16ToProperString_stop hc (by simpa using hlen), List.append_nil]
  | cons x s ih =>
    rw [List.length_cons] at hlen
    rw [List.cons_append, fat16ToProperString_step (hs x List.mem_cons_self) (by omega),
      ih (fun c hc => hs c (List.mem_cons_of_mem _ hc)) (by simp; omega)]
    simp

/-- What is copied begins with the text. -/
theorem fat16ToProperString_begins (hs : ∀ c ∈ s, ¬Stops c)
    (h : fat16ToProperString (s ++ bs) out = some r) : ∃ t, r = out ++ s ++ t := by
  induction s generalizing out with
  | nil =>
    induction bs generalizing out with
    | nil => cases h
    | cons c bs ih =>
      rw [List.nil_append, fat16ToProperString] at h
      split_ifs at h
      · exact ⟨[], by simp [Option.some.inj h]⟩
      · exact ⟨[], by simp [Option.some.inj h]⟩
      · obtain ⟨t, rfl⟩ := ih h
        exact ⟨c :: t, by simp⟩
  | cons x s ih =>
    have hx := hs x List.mem_cons_self
    rw [List.cons_append, fat16ToProperString, if_neg fun h => hx (.inl h)] at h
    split_ifs at h with hfull hspace
    · exact absurd (.inr hspace) hx
    · obtain ⟨t, rfl⟩ := ih (fun c hc => hs c (List.mem_cons_of_mem _ hc)) h
      exact ⟨t, by simp⟩

end Copy

/-! ## Decoding -/

section Decode

variable {name : ShortName} {attributes : UInt8} {rest : List UInt8}

/-- The extension of the entry. -/
theorem ShortName.drop_entry :
    (name.entry attributes rest).drop 8 = padded 3 name.extension ++ attributes :: rest :=
  List.drop_left' (length_padded name.filename_le)

theorem ShortName.charAt_entry : charAt (name.entry attributes rest) 8 =
    charAt (padded 3 name.extension ++ attributes :: rest) 0 := by
  rw [← ShortName.drop_entry]
  simp [charAt, List.getD_eq_getElem?_getD]

/-- The extension is copied whole and no further if it leaves room in its field or the
attributes stop it. -/
theorem fat16ToProperString_extension_iff {out : List UInt8} (hout : out.length + 3 < maxPath) :
    fat16ToProperString (padded 3 name.extension ++ attributes :: rest) out =
        some (out ++ name.extension) ↔ name.extension.length < 3 ∨ Stops attributes := by
  rcases Nat.lt_or_eq_of_le name.extension_le with hlt | heq
  · obtain ⟨spaces, hspaces⟩ := padded_of_lt hlt
    refine iff_of_true ?_ (.inl hlt)
    rw [hspaces, List.append_assoc, List.cons_append,
      fat16ToProperString_field name.extension_bytes (.inr rfl) (by omega)]
  · rw [padded_of_eq heq, or_iff_right (by omega)]
    by_cases hstop : Stops attributes
    · exact iff_of_true
        (fat16ToProperString_field name.extension_bytes hstop (by omega)) hstop
    · refine iff_of_false (fun h => ?_) hstop
      rw [List.append_cons] at h
      obtain ⟨t, ht⟩ := fat16ToProperString_begins
        (fun c hc => (List.mem_append.mp hc).elim (name.extension_bytes c)
          fun hc => List.mem_singleton.mp hc ▸ hstop) h
      have hlen := congrArg List.length ht
      simp only [List.length_append, List.length_singleton] at hlen
      omega

/-- The name is copied whole and no further if it leaves room in its field or there is no
extension. -/
theorem fat16ToProperString_filename (h : name.filename.length < 8 ∨ name.extension = []) :
    fat16ToProperString (name.entry attributes rest) [] = some name.filename := by
  have hmax : 16 ≤ maxPath := by decide
  rcases Nat.lt_or_eq_of_le name.filename_le with hlt | heq
  · obtain ⟨spaces, hspaces⟩ := padded_of_lt hlt
    rw [ShortName.entry, hspaces, List.append_assoc, List.cons_append,
      fat16ToProperString_field name.filename_bytes (.inr rfl) (by simp; omega), List.nil_append]
  · have hempty : name.extension = [] := h.resolve_left (by omega)
    rw [ShortName.entry, padded_of_eq heq, hempty]
    exact fat16ToProperString_field name.filename_bytes (.inr rfl) (by simp; omega)

/-- With an extension the field of the extension is copied behind a dot. -/
theorem fat16GetFullRelativeFilename_extension (hext : name.extension ≠ []) :
    fat16GetFullRelativeFilename (name.entry attributes rest) =
      (fat16ToProperString (name.entry attributes rest) []).bind fun out =>
        if maxPath ≤ out.length then none
        else fat16ToProperString (padded 3 name.extension ++ attributes :: rest) (out ++ [46]) := by
  obtain ⟨c, s, hcs⟩ := List.exists_cons_of_ne_nil hext
  have hc : ¬Stops c := name.extension_bytes c (hcs ▸ List.mem_cons_self)
  have hchar : charAt (name.entry attributes rest) 8 ≠ 0 ∧
      charAt (name.entry attributes rest) 8 ≠ 0x20 := by
    rw [ShortName.charAt_entry, padded, hcs]
    exact not_or.mp hc
  rw [fat16GetFullRelativeFilename, ShortName.drop_entry]
  exact bind_congr fun out => if_pos hchar

/-- The names that are decoded from their own fields are those that leave room in the name
field or have no extension, and whose extension leaves room or is stopped by the attributes.
A NUL follows, since the output is zeroed first and longer than any name. -/
theorem fat16GetFullRelativeFilename_decodes_iff (name : ShortName) (attributes : UInt8)
    (rest : List UInt8) :
    fat16GetFullRelativeFilename (name.entry attributes rest) = some name.full ↔
      (name.filename.length < 8 ∨ name.extension = []) ∧
        (name.extension.length < 3 ∨ Stops attributes) := by
  have hmax : 16 ≤ maxPath := by decide
  have hle := name.filename_le
  by_cases hext : name.extension = []
  · have hspace : charAt (name.entry attributes rest) 8 = 0x20 := by
      rw [ShortName.charAt_entry, hext]
      rfl
    refine iff_of_true ?_ ⟨.inr hext, .inl (by simp [hext])⟩
    simp [fat16GetFullRelativeFilename, fat16ToProperString_filename (.inr hext), hspace,
      ShortName.full, hext]
  have hfull : name.full = name.filename ++ [46] ++ name.extension := by
    simp [ShortName.full, hext]
  rw [or_iff_left hext, fat16GetFullRelativeFilename_extension hext]
  by_cases hlt : name.filename.length < 8
  · have hout : (name.filename ++ [46]).length + 3 < maxPath := by
      rw [List.length_append, List.length_singleton]
      omega
    rw [fat16ToProperString_filename (.inl hlt), and_iff_right hlt, hfull,
      ← fat16ToProperString_extension_iff hout, Option.bind_some, if_neg (by omega)]
  · refine iff_of_false (fun h => ?_) fun h => hlt h.1
    obtain ⟨out, hout, h⟩ := Option.bind_eq_some_iff.mp h
    split_ifs at h
    -- the name runs on into the extension, and the extension follows once more
    rw [ShortName.entry, padded_of_eq (by omega), padded, List.append_assoc, ← List.append_assoc]
      at hout
    rw [padded, List.append_assoc] at h
    obtain ⟨t, rfl⟩ := fat16ToProperString_begins
      (fun c hc => (List.mem_append.mp hc).elim (name.filename_bytes c) (name.extension_bytes c))
      hout
    obtain ⟨t', ht'⟩ := fat16ToProperString_begins name.extension_bytes h
    have hpos := List.length_pos_iff.mpr hext
    have hlen := congrArg List.length ht'
    simp only [hfull, List.length_append, List.length_singleton, List.length_nil] at hlen
    omega

end Decode

/-- The name `ABCDEFGH.TXT`, whose fields are both full. -/
def fullName : ShortName where
  filename := [65, 66, 67, 68, 69, 70, 71, 72]
  extension := [84, 88, 84]
  filename_pos := by decide
  filename_le := by decide
  extension_le := by decide
  filename_bytes := by decide +kernel
  extension_bytes := by decide +kernel

/-- It is decoded to `ABCDEFGHTXT.TXT`, with the archive attribute. -/
theorem fat16GetFullRelativeFilename_not_always_decodes :
    ¬∀ (name : ShortName) (attributes : UInt8) (rest : List UInt8),
      fat16GetFullRelativeFilename (name.entry attributes rest) = some name.full := by
  intro hall
  have hrun : fat16GetFullRelativeFilename (fullName.entry 0x20 (List.replicate 20 0)) =
      some [65, 66, 67, 68, 69, 70, 71, 72, 84, 88, 84, 46, 84, 88, 84] := by
    decide
  rw [hall] at hrun
  exact absurd hrun (by decide)

end Hyperion
