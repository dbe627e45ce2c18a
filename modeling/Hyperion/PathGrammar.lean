import Hyperion.Lib.Tokens
import Hyperion.FileFrame

/-!
# What the path parser accepts

The grammar of a path is a digit, `:/`, and parts that are separated by slashes, with or without
one at the end (`PathGrammar`). `pathparser_get_path_part` has no part for the end of the path and
for a part that is empty, so the parser stops in front of an empty part and gives back those
before it. It accepts the grammar on the paths it refuses, on those whose first part is empty
and on those with no two adjacent slashes (`pathparserParse_accepts_iff`).

`parsedPath` is what the parser makes of a path, without the heap : the fields between the slashes
in front of the first empty one (`pathparserParseParts_eq`). The parser itself allocates a node and
a buffer for each part, and does so as long as there are blocks (`pathparserParse_eq`). A path with
an empty part in the middle is in no grammar, and is accepted with the parts before it
(`pathparserParse_drops`).
-/

namespace Hyperion

open Partial Tokens

variable {r : Prop} {k k' : Kernel} {s path : List UInt8}

/-! ## The parts -/

/-- `kzalloc` for a part of a block, which has an answer other than null if a block is free. -/
theorem kzalloc_if_free_meets {Q : ℕ → Kernel → Prop} {size : ℕ} (hpos : 1 ≤ size)
    (hle : size ≤ 4096) (hr : r → 0 < k.freeBlocks) (hnull : ¬r → Q 0 k)
    (hQ : ∀ p k', p ≠ 0 → k.freeBlocks ≤ k'.freeBlocks + 1 → Q p k') :
    Meets r (kzalloc size) k Q := by
  by_cases hfree : 0 < k.freeBlocks
  · exact Kernel.kzalloc_free_meets hpos hle hfree fun p k' hp _ hk => hQ p k' hp hk
  · rcases Kernel.kzalloc_one k hpos hle with ⟨b, -, -, -, he⟩ | ⟨he, -⟩
    · exact .of_run_eq he (hQ _ _ (blockAddr_pos b) (by omega))
    · exact .of_run_eq he (hnull fun h => hfree (hr h))

/-- A part is the first field, and no part means that there is none. -/
structure TakesPart (path : List UInt8) (k : Kernel) (out : Option (List UInt8) × List UInt8)
    (k' : Kernel) : Prop where
  stop : out.1 = none → leadingFields 47 path = []
  part : ∀ w, out.1 = some w → leadingFields 47 path = w :: leadingFields 47 out.2 ∧
    out.2.length < path.length ∧
    (2 * path.length + 1 ≤ k.freeBlocks → 2 * out.2.length + 1 ≤ k'.freeBlocks)

theorem TakesPart.of_takeWhile (hk : k.freeBlocks ≤ k'.freeBlocks + 2)
    (hne : path.takeWhile (· ≠ 47) ≠ []) :
    TakesPart path k (some (path.takeWhile (· ≠ 47)), (path.dropWhile (· ≠ 47)).drop 1) k' := by
  refine ⟨fun h => (nomatch h), fun w hw => ?_⟩
  cases hw
  rcases word_or_append 47 path with ⟨hs, htake, hdrop⟩ | ⟨v, t, rfl, hv, htake, hdrop⟩
  · rw [htake] at hne ⊢
    have hlen := List.length_pos_iff.mpr hne
    rw [hdrop, List.drop_nil, leadingFields_nil, leadingFields_word hne hs]
    exact ⟨rfl, hlen, fun h => by rw [List.length_nil]; omega⟩
  · rw [htake] at hne ⊢
    have hlen := List.length_pos_iff.mpr hne
    rw [hdrop, List.drop_one, List.tail_cons, leadingFields_append hne hv, List.length_append,
      List.length_cons]
    have hlast : (some v, t).2.length = t.length := rfl
    exact ⟨rfl, by omega, fun h => by omega⟩

theorem TakesPart.of_empty (rest : List UInt8) (h : path.takeWhile (· ≠ 47) = []) :
    TakesPart path k (none, rest) k' := by
  refine ⟨fun _ => leadingFields_eq_nil_iff.mpr ?_, fun w hw => (nomatch hw)⟩
  cases path with
  | nil => exact .inl rfl
  | cons c path => exact .inr (by simpa using h)

theorem pathparserParsePathPart_takes (hr : r → 2 * path.length + 1 ≤ k.freeBlocks) :
    Meets r (pathparserParsePathPart path) k (TakesPart path k) := by
  rw [pathparserParsePathPart, pathparserGetPathPart]
  simp only [Meets.bind_iff, Meets.ite_iff, Meets.fault_iff, Meets.pure_iff, kfree_iff]
  by_cases hempty : path.takeWhile (· ≠ 47) = []
  · refine kzalloc_if_free_meets (by decide) (by decide) (fun h => by have := hr h; omega)
      (fun hno => ?_) fun p k₁ _ _ => ?_
    all_goals exact ⟨fun h => absurd hempty h.1,
      fun _ => ⟨fun _ => .of_empty _ hempty, fun h => absurd hempty h⟩⟩
  · have hlen : 0 < path.length := by
      refine List.length_pos_iff.mpr ?_
      rintro rfl
      exact hempty rfl
    refine kzalloc_if_free_meets (by decide) (by decide) (fun h => by have := hr h; omega)
      (fun hno => ⟨fun _ => hno, fun h => absurd ⟨hempty, rfl⟩ h⟩) fun p k₁ hp hk₁ => ?_
    refine ⟨fun h => absurd h.2 hp, fun _ => ⟨fun h => absurd h hempty, fun _ => ?_⟩⟩
    refine kzalloc_if_free_meets (by decide) (by decide) (fun h => by have := hr h; omega)
      (fun hno => ⟨fun _ => hno, fun h => absurd rfl h⟩) fun q k₂ hq hk₂ => ?_
    exact ⟨fun h => absurd h hq, fun _ => .of_takeWhile (by omega) hempty⟩

/-- The parts are the fields in front of the first empty one. -/
theorem pathparserParseParts_eq : ∀ (fuel : ℕ) {path : List UInt8} {k : Kernel},
    (r → 2 * path.length + 1 ≤ k.freeBlocks) → path.length < fuel →
    Meets r (pathparserParseParts fuel path) k fun parts _ => parts = leadingFields 47 path
  | 0, _, _, _, hfuel => absurd hfuel (Nat.not_lt_zero _)
  | fuel + 1, path, k, hr, hfuel => by
    refine .bind (pathparserParsePathPart_takes hr) ?_
    rintro ⟨part, rest⟩ k₁ h
    cases part with
    | none => exact Meets.pure_iff.mpr (h.stop rfl).symm
    | some part =>
      obtain ⟨hfields, hlen, hroom⟩ := h.part part rfl
      have hlen : rest.length < path.length := hlen
      refine .bind (pathparserParseParts_eq fuel (fun h => hroom (hr h)) (by omega))
        fun parts _ hparts => Meets.pure_iff.mpr ?_
      rw [hparts, hfields]

/-! ## The path -/

/-- What the parser makes of a path. -/
def parsedPath (s : List UInt8) : Option PathRoot :=
  if maxPath < s.length ∨ pathparserPathValidFormat s = false then none
  else some ⟨tonumericdigit (charAt s 0), leadingFields 47 (s.drop 3)⟩

theorem PathRefused.parsedPath_eq (h : PathRefused s) : parsedPath s = none := if_pos h

theorem parsedPath_of_not_refused (h : ¬PathRefused s) :
    parsedPath s = some ⟨tonumericdigit (charAt s 0), leadingFields 47 (s.drop 3)⟩ := if_neg h

/-- A path as its format is checked. -/
theorem pathparserPathValidFormat_iff : pathparserPathValidFormat s = true ↔
    ∃ c rest, s = c :: 58 :: 47 :: rest ∧ isdigit c = true := by
  rw [pathparserPathValidFormat]
  constructor
  · intro h
    simp only [strnlen, Bool.and_eq_true, decide_eq_true_eq] at h
    obtain ⟨⟨⟨hlen, hdigit⟩, hcolon⟩, hslash⟩ := h
    obtain ⟨c, d, e, rest, rfl⟩ : ∃ c d e rest, s = c :: d :: e :: rest := by
      match s, hlen with
      | c :: d :: e :: rest, _ => exact ⟨c, d, e, rest, rfl⟩
    obtain rfl : d = 58 := hcolon
    obtain rfl : e = 47 := hslash
    exact ⟨c, rest, rfl, hdigit⟩
  · rintro ⟨c, rest, rfl, hdigit⟩
    have hlen : 3 ≤ strnlen (c :: 58 :: 47 :: rest) maxPath := by
      simp [strnlen, maxPath]
    simp [hlen, charAt, hdigit]

theorem pathparserParse_eq (hr : r → 2 * s.length ≤ k.freeBlocks) :
    Meets r (pathparserParse s) k fun root _ => root = parsedPath s := by
  rw [pathparserParse, Meets.ite_iff]
  refine ⟨fun hlong => Meets.pure_iff.mpr (PathRefused.parsedPath_eq (.inl hlong)).symm,
    fun hlen => ?_⟩
  rw [pathparserGetDriveByPath]
  by_cases hv : pathparserPathValidFormat s = true
  · have hparsed := parsedPath_of_not_refused (s := s) fun h => h.elim hlen fun hbad => by
      rw [hv] at hbad
      cases hbad
    have hlen3 : 3 ≤ s.length := by
      obtain ⟨c, rest, rfl, -⟩ := pathparserPathValidFormat_iff.mp hv
      simp
    have hdrop : (s.drop 3).length = s.length - 3 := List.length_drop
    simp only [hv, Bool.not_true, Bool.false_eq_true, if_false, Meets.bind_iff, Meets.ite_iff,
      Meets.fault_iff, Meets.pure_iff]
    refine kzalloc_if_free_meets (by decide) (by decide) (fun h => by have := hr h; omega)
      (fun hno => ⟨fun _ => hno, fun h => absurd rfl h⟩) fun p k₁ hp hk₁ => ?_
    refine ⟨fun h => absurd h hp, fun _ => ?_⟩
    refine (pathparserParseParts_eq _ (fun h => ?_) (by omega)).mono fun parts _ hparts => ?_
    · have := hr h
      omega
    · rw [hparts, hparsed]
  · rw [Bool.not_eq_true] at hv
    simp only [hv, Bool.not_false, if_true]
    exact Meets.pure_iff.mpr (PathRefused.parsedPath_eq (.inr hv)).symm

/-! ## The grammar -/

/-- `s` is the drive `driveNo`, and the parts with slashes between them. -/
structure PathGrammar (s : List UInt8) (driveNo : Int) (parts : List (List UInt8)) : Prop where
  length : s.length ≤ maxPath
  ne_nil : parts ≠ []
  part : ∀ w ∈ parts, w ≠ [] ∧ 47 ∉ w
  text : ∃ c rest, s = c :: 58 :: 47 :: rest ∧ isdigit c = true ∧ driveNo = tonumericdigit c ∧
    (rest = [47].intercalate parts ∨ rest = [47].intercalate parts ++ [47])

/-- A root with parts is given for the paths of the grammar, and the parts are those. -/
def AcceptsGrammar (s : List UInt8) (root : Option PathRoot) : Prop :=
  ∀ driveNo parts, parts ≠ [] → (root = some ⟨driveNo, parts⟩ ↔ PathGrammar s driveNo parts)

/-- Every path of the grammar is accepted. -/
theorem PathGrammar.parsedPath_eq {driveNo : Int} {parts : List (List UInt8)}
    (h : PathGrammar s driveNo parts) : parsedPath s = some ⟨driveNo, parts⟩ := by
  obtain ⟨c, rest, rfl, hdigit, rfl, hrest⟩ := h.text
  have hvalid := pathparserPathValidFormat_iff.mpr ⟨c, rest, rfl, hdigit⟩
  have href : ¬PathRefused (c :: 58 :: 47 :: rest) := fun hbad =>
    hbad.elim (Nat.not_lt.mpr h.length) fun hbad => by
      rw [hvalid] at hbad
      cases hbad
  rw [parsedPath_of_not_refused href, ← Whole.leadingFields_eq hrest h.ne_nil h.part]
  rfl

/-- With no parts there is nothing to accept. -/
theorem acceptsGrammar_of_no_parts
    (h : ∀ driveNo parts, parts ≠ [] → parsedPath s ≠ some ⟨driveNo, parts⟩) :
    AcceptsGrammar s (parsedPath s) := fun driveNo parts hne =>
  iff_of_false (h driveNo parts hne) fun hg => h driveNo parts hne hg.parsedPath_eq

theorem acceptsGrammar_parsedPath_iff : AcceptsGrammar s (parsedPath s) ↔
    PathRefused s ∨ (s.drop 3).head? = some 47 ∨ ¬[47, 47] <:+: s.drop 3 := by
  by_cases href : PathRefused s
  · refine iff_of_true (acceptsGrammar_of_no_parts fun driveNo parts _ => ?_) (.inl href)
    rw [href.parsedPath_eq]
    exact fun h => (nomatch h)
  have hroot := parsedPath_of_not_refused href
  obtain ⟨hlen, hvalid⟩ := not_or.mp href
  rw [Bool.not_eq_false] at hvalid
  obtain ⟨c, rest, rfl, hdigit⟩ := pathparserPathValidFormat_iff.mp hvalid
  have hdrop : (c :: 58 :: 47 :: rest).drop 3 = rest := rfl
  rw [hdrop] at hroot ⊢
  rw [or_iff_right href]
  by_cases hempty : leadingFields 47 rest = []
  · refine iff_of_true (acceptsGrammar_of_no_parts fun driveNo parts hne => ?_) ?_
    · rw [hroot, hempty]
      intro he
      cases he
      exact hne rfl
    · rcases leadingFields_eq_nil_iff.mp hempty with rfl | hhead
      · exact .inr (by simp)
      · exact .inl hhead
  · have hhead : rest.head? ≠ some 47 := fun h => hempty (leadingFields_eq_nil_iff.mpr (.inr h))
    rw [or_iff_right hhead, ← whole_leadingFields_iff rest hhead]
    constructor
    · intro h
      obtain ⟨c', rest', he, -, -, hwhole⟩ := ((h _ _ hempty).mp hroot).text
      cases he
      exact hwhole
    · intro hwhole driveNo parts hne
      refine ⟨fun he => ?_, PathGrammar.parsedPath_eq⟩
      rw [hroot] at he
      cases he
      exact ⟨Nat.not_lt.mp hlen, hne, fun w hw => leadingFields_word_of_mem hw,
        c, rest, rfl, hdigit, rfl, hwhole⟩

/-- The parser accepts the grammar, on a path that it does not refuse, exactly if the first part is
empty or no two slashes are adjacent. With two blocks for each character it has a result. -/
theorem pathparserParse_accepts_iff (s : List UInt8) (k : Kernel) :
    (∀ root k', pathparserParse s k = some (root, k') → (AcceptsGrammar s root ↔
      PathRefused s ∨ (s.drop 3).head? = some 47 ∨ ¬[47, 47] <:+: s.drop 3)) ∧
    (2 * s.length ≤ k.freeBlocks → (pathparserParse s k).isSome) := by
  constructor
  · intro root k' hrun
    have hroot := (pathparserParse_eq (r := False) (·.elim)).of_eq hrun
    rw [hroot]
    exact acceptsGrammar_parsedPath_iff
  · intro hroom
    obtain ⟨root, k', hrun, -⟩ := (pathparserParse_eq (r := True) fun _ => hroom).exists_result
    rw [hrun]
    rfl

/-- The path `0:/a` is accepted. -/
theorem pathparserParse_accepts_one : ∃ root k',
    pathparserParse [48, 58, 47, 97] Kernel.empty = some (root, k') ∧
      AcceptsGrammar [48, 58, 47, 97] root := by
  obtain ⟨hiff, hroom⟩ := pathparserParse_accepts_iff [48, 58, 47, 97] Kernel.empty
  obtain ⟨⟨root, k'⟩, hrun⟩ := Option.isSome_iff_exists.mp
    (hroom (by rw [Kernel.freeBlocks_empty rfl]; decide))
  exact ⟨root, k', hrun, (hiff root k' hrun).mpr (.inr (.inr (by decide)))⟩

/-- The path `0:/a//b` gives the one part `a`. -/
theorem pathparserParse_drops : ∃ k', pathparserParse [48, 58, 47, 97, 47, 47, 98] Kernel.empty =
    some (some ⟨0, [[97]]⟩, k') ∧
      ¬AcceptsGrammar [48, 58, 47, 97, 47, 47, 98] (some ⟨0, [[97]]⟩) := by
  obtain ⟨root, k', hrun, hroot⟩ := (pathparserParse_eq (s := [48, 58, 47, 97, 47, 47, 98])
    (k := Kernel.empty) (r := True) fun _ => by
      rw [Kernel.freeBlocks_empty rfl]
      decide).exists_result
  have hparsed : parsedPath [48, 58, 47, 97, 47, 47, 98] = some ⟨0, [[97]]⟩ := by decide
  refine ⟨k', by rw [hrun, hroot, hparsed], fun h => ?_⟩
  rw [← hparsed, acceptsGrammar_parsedPath_iff] at h
  revert h
  unfold PathRefused
  decide

end Hyperion
