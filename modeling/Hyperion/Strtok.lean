import Hyperion.Lib.CString
import Hyperion.Lib.Partial
import Hyperion.Lib.Tokens
import Mathlib.Algebra.Order.Sub.Basic

/-!
# `strtok` of the programs

`strtok` of `programs/stdlib/src/string.c` keeps its place in the global `sp`, and takes
the string it is given only if `sp` is null. The memory is that of the program, and walking
past its end has no next state. The calls up to the first null return the tokens of the string
(`strtokAll_splits`).

The two loops of the function are programs of their own : the first skips delimiters
(`strtokSkip_run`), and the last goes on to the next delimiter or NUL, stores a NUL there and moves
`sp` behind it (`wordEnd_ended`). One byte is stored at most, in the string (`wordEnd_mem`), so that
the places of the tokens that are still to come do not move.

`strtok_eq` puts the loops together. At a string without a token `strtok` returns null and forgets
its place (`strtok_none`), at any other it returns the first token and leaves the others at `sp`
(`strtok_some`). The calls up to the first null are an induction over the tokens
(`strtokAll_run`).
-/

namespace Hyperion

open Partial CString Tokens

/-- A program's memory, and the global `sp` of `strtok`. -/
structure ProgramState where
  mem : ℕ → UInt8
  sp : ℕ

abbrev ProgramM := Prog ProgramState

/-- The bytes of the address space from `a` on. -/
def spaceLeft (a : ℕ) : ℕ := 4294967296 - a

/-- The first loop of `strtok` : `p_start` behind the delimiters. -/
def strtokSkip (delimiters : List UInt8) : (fuel pStart : ℕ) → ProgramM ℕ
  | 0, _ => fault
  | fuel + 1, pStart => do
    let s ← get
    if s.mem pStart ∈ delimiters then strtokSkip delimiters fuel (pStart + 1)
    else return pStart

/-- The last loop of `strtok` : a NUL on the delimiter that ends the substring, and `sp`
behind it. -/
def strtokEnd (delimiters : List UInt8) : (fuel : ℕ) → ProgramM Unit
  | 0 => fault
  | fuel + 1 => do
    let s ← get
    if s.mem s.sp = 0 then return
    if s.mem s.sp ∈ delimiters then
      set { s with mem := Function.update s.mem s.sp 0, sp := s.sp + 1 }
    else
      set { s with sp := s.sp + 1 }
      strtokEnd delimiters fuel

def strtok (str : ℕ) (delimiters : List UInt8) : ProgramM ℕ := do
  let s ← get
  if str = 0 ∧ s.sp = 0 then return 0
  let start := if s.sp = 0 then str else s.sp
  let pStart ← strtokSkip delimiters (spaceLeft start) start
  if s.mem pStart = 0 then
    set { s with sp := 0 }
    return 0
  set { s with sp := pStart }
  strtokEnd delimiters (spaceLeft pStart)
  return pStart

variable {m : ℕ → UInt8} {a q sp str : ℕ} {s delimiters ts : List UInt8}

/-- The delimiters as a predicate. -/
def isDelimiter (delimiters : List UInt8) (c : UInt8) : Bool := c ∈ delimiters

@[simp] theorem isDelimiter_iff {c : UInt8} : isDelimiter delimiters c = true ↔ c ∈ delimiters := by
  simp [isDelimiter]

/-! ## The loops -/

theorem strtokSkip_run (hnul : 0 ∉ delimiters) :
    ∀ (s : List UInt8) (fuel a sp : ℕ), StringIn m a s → s.length < fuel →
      strtokSkip delimiters fuel a ⟨m, sp⟩ =
        some (a + (s.takeWhile (isDelimiter delimiters)).length, ⟨m, sp⟩)
  | [], fuel + 1, a, sp, h, _ => by
    simp [strtokSkip, run_bind, run_get, run_pure, h.nul, hnul]
  | x :: s, fuel + 1, a, sp, h, hlen => by
    have hrest := strtokSkip_run hnul s fuel (a + 1) sp h.tail (by simpa using hlen)
    by_cases hx : x ∈ delimiters
    · rw [List.takeWhile_cons_of_pos (by simpa), List.length_cons]
      simp only [strtokSkip, run_bind, run_get, Option.bind_some, h.head, if_pos hx, hrest]
      congr 2
      omega
    · rw [List.takeWhile_cons_of_neg (by simpa)]
      simp [strtokSkip, run_bind, run_get, run_pure, h.head, hx]

/-- The length of the substring in front. -/
def wordLength (delimiters s : List UInt8) : ℕ := (wordAt (isDelimiter delimiters) s 0).length

/-- The state in which the last loop of `strtok` ends at the string `s`. -/
def wordEnd (delimiters : List UInt8) (m : ℕ → UInt8) (sp : ℕ) (s : List UInt8) : ProgramState :=
  if wordLength delimiters s = s.length then ⟨m, sp + wordLength delimiters s⟩
  else ⟨Function.update m (sp + wordLength delimiters s) 0, sp + wordLength delimiters s + 1⟩

theorem strtokEnd_eq (delimiters : List UInt8) :
    ∀ (s : List UInt8) (fuel sp : ℕ), StringIn m sp s → s.length < fuel →
      strtokEnd delimiters fuel ⟨m, sp⟩ = some ((), wordEnd delimiters m sp s)
  | [], fuel + 1, sp, h, _ => by
    simp [strtokEnd, run_bind, run_get, run_pure, h.nul, wordEnd, wordLength, wordAt]
  | x :: s, fuel + 1, sp, h, hlen => by
    by_cases hx : x ∈ delimiters
    · simp [strtokEnd, run_bind, run_get, run_set, h.head, h.head_ne, hx, wordEnd, wordLength,
        wordAt]
    · have ih := strtokEnd_eq delimiters s fuel (sp + 1) h.tail (by simpa using hlen)
      have hd : isDelimiter delimiters x = false := by simpa [isDelimiter] using hx
      have hword : wordLength delimiters (x :: s) = wordLength delimiters s + 1 := by
        simp [wordLength, wordAt, hd]
      simp only [strtokEnd, run_bind, run_get, run_set, Option.bind_some, h.head, if_neg h.head_ne,
        if_neg hx, ih]
      simp only [wordEnd, hword, List.length_cons, Nat.add_right_cancel_iff, Nat.add_assoc,
        Nat.add_comm 1]

theorem wordLength_le (delimiters s : List UInt8) : wordLength delimiters s ≤ s.length :=
  (List.takeWhile_prefix _).length_le

theorem length_afterWord (delimiters s : List UInt8) :
    (afterWord (isDelimiter delimiters) s).length = s.length - (wordLength delimiters s + 1) := by
  rw [afterWord_eq_drop, List.length_drop, wordLength]

/-- Where the last loop ends. -/
theorem wordEnd_sp : (wordEnd delimiters m sp s).sp =
    sp + min (wordLength delimiters s + 1) s.length := by
  have hle := wordLength_le delimiters s
  unfold wordEnd
  split_ifs with hall
  · show sp + _ = _
    omega
  · show sp + _ + 1 = _
    omega

/-- What is left stands behind the first word and the byte after it. -/
theorem wordEnd_place {i : ℕ} (hi : i < (afterWord (isDelimiter delimiters) s).length) :
    (wordEnd delimiters m sp s).sp + i = sp + (wordLength delimiters s + (i + 1)) := by
  rw [length_afterWord] at hi
  rw [wordEnd_sp]
  omega

/-- One byte is stored at most, in the string. -/
theorem wordEnd_mem {y : ℕ} (hy : y < sp ∨ sp + s.length ≤ y) :
    (wordEnd delimiters m sp s).mem y = m y := by
  have hle := wordLength_le delimiters s
  unfold wordEnd
  split_ifs with hall
  · rfl
  · exact Function.update_of_ne (by omega) _ _

/-- What the last loop leaves behind for a string at `sp` : the word ends with a NUL, and
the rest of the string, if any, is at the new `sp`. -/
structure WordEnded (delimiters : List UInt8) (m : ℕ → UInt8) (sp : ℕ) (s : List UInt8)
    (t : ProgramState) : Prop where
  word : StringIn t.mem sp (s.takeWhile fun c => !isDelimiter delimiters c)
  rest : StringIn t.mem t.sp (afterWord (isDelimiter delimiters) s)
  le : sp ≤ t.sp
  fits : t.sp + (afterWord (isDelimiter delimiters) s).length ≤ sp + s.length
  outside : ∀ a < sp, t.mem a = m a

theorem wordEnd_ended (h : StringIn m sp s) :
    WordEnded delimiters m sp s (wordEnd delimiters m sp s) := by
  have hsplit := List.takeWhile_append_dropWhile (p := fun c => !isDelimiter delimiters c) (l := s)
  have hword : wordLength delimiters s =
      (s.takeWhile fun c => !isDelimiter delimiters c).length := rfl
  have hstring := h
  rw [← hsplit] at hstring
  have hrest := hstring.drop
  rw [← hword] at hrest
  cases hdrop : s.dropWhile fun c => !isDelimiter delimiters c with
  | nil =>
    rw [hdrop] at hrest
    rw [hdrop, List.append_nil] at hsplit
    have hall : wordLength delimiters s = s.length := by rw [hword, hsplit]
    have hafter : afterWord (isDelimiter delimiters) s = [] := by
      rw [afterWord, hdrop, List.tail_nil]
    rw [wordEnd, if_pos hall]
    refine ⟨by rwa [hsplit], by rwa [hafter], Nat.le_add_right _ _, ?_, fun _ _ => rfl⟩
    rw [hafter]
    show sp + _ + 0 ≤ _
    omega
  | cons x r =>
    rw [hdrop] at hrest hstring
    have hlen := congrArg List.length hsplit
    rw [hdrop, List.length_append, List.length_cons, ← hword] at hlen
    have hafter : afterWord (isDelimiter delimiters) s = r := by
      rw [afterWord, hdrop, List.tail_cons]
    rw [wordEnd, if_neg (by omega)]
    refine ⟨?_, ?_, (show sp ≤ sp + _ + 1 by omega), ?_,
      fun a ha => Function.update_of_ne (by omega) _ _⟩
    · refine hstring.cut (fun i hi => Function.update_of_ne ?_ _ _) ?_
      · rw [hword]
        omega
      · rw [← hword]
        exact Function.update_self _ _ _
    · rw [hafter]
      exact hrest.tail.congr fun i _ => Function.update_of_ne (by omega) _ _
    · rw [hafter]
      show sp + _ + 1 + _ ≤ _
      omega

/-! ## `strtok` -/

/-- What `strtok` leaves behind at a string whose tokens are `w :: ts`. -/
structure TokenCut (delimiters : List UInt8) (bound p : ℕ) (w : List UInt8)
    (ts : List (List UInt8)) (t : ProgramState) (s' : List UInt8) : Prop where
  token : StringIn t.mem p w
  token_ne : p ≠ 0
  rest : StringIn t.mem t.sp s'
  rest_ne : t.sp ≠ 0
  tokens : tokens (isDelimiter delimiters) s' = ts
  fits : t.sp + s'.length ≤ bound

/-- Where `strtok` starts : `sp`, or `str` if that is null. -/
def strtokStart (str sp : ℕ) : ℕ := if sp = 0 then str else sp

/-- The state in which `strtok` ends, when the string at its start is `s`. -/
def strtokResult (delimiters : List UInt8) (m : ℕ → UInt8) (start : ℕ) (s : List UInt8) :
    ℕ × ProgramState :=
  match s.dropWhile (isDelimiter delimiters) with
  | [] => (0, ⟨m, 0⟩)
  | x :: r =>
    let p := start + (s.takeWhile (isDelimiter delimiters)).length
    (p, wordEnd delimiters m p (x :: r))

theorem strtok_eq (hnul : 0 ∉ delimiters) (hstart : strtokStart str sp ≠ 0)
    (h : StringIn m (strtokStart str sp) s)
    (hfits : strtokStart str sp + s.length < 4294967296) :
    strtok str delimiters ⟨m, sp⟩ =
      some (strtokResult delimiters m (strtokStart str sp) s) := by
  have hcall : ¬(str = 0 ∧ sp = 0) := fun hz => hstart (by simp [strtokStart, hz])
  have hskip := strtokSkip_run hnul s (spaceLeft (strtokStart str sp)) _ sp h
    (by unfold spaceLeft; omega)
  have hsplit := List.takeWhile_append_dropWhile (p := isDelimiter delimiters) (l := s)
  simp only [strtok, run_bind, run_get, Option.bind_some, if_neg hcall]
  rw [← strtokStart, hskip]
  unfold strtokResult
  have hrest := h
  rw [← hsplit] at hrest
  replace hrest := hrest.drop
  have hlen := congrArg List.length hsplit
  rw [List.length_append] at hlen
  cases hdrop : s.dropWhile (isDelimiter delimiters) with
  | nil =>
    rw [hdrop] at hrest
    simp only [Option.bind_some, hrest.nul, if_pos, run_bind, run_set, run_pure]
  | cons x r =>
    rw [hdrop] at hrest hlen
    have hhead := hrest.head
    have hend := strtokEnd_eq delimiters (x :: r)
      (spaceLeft (strtokStart str sp + (s.takeWhile (isDelimiter delimiters)).length)) _ hrest
      (by unfold spaceLeft; omega)
    simp only [Option.bind_some, hhead, if_neg hrest.head_ne, run_bind, run_set, run_pure, hend]

/-- At a string with no token `strtok` returns null and forgets its place. -/
theorem strtok_none (hnul : 0 ∉ delimiters) (hstart : strtokStart str sp ≠ 0)
    (h : StringIn m (strtokStart str sp) s)
    (hfits : strtokStart str sp + s.length < 4294967296)
    (hnone : tokens (isDelimiter delimiters) s = []) :
    strtok str delimiters ⟨m, sp⟩ = some (0, ⟨m, 0⟩) := by
  rw [strtok_eq hnul hstart h hfits, strtokResult, tokens_eq_nil_iff.mp hnone]

/-- At a string with a token `strtok` returns the first one, and the others are what is
left at `sp`. -/
theorem strtok_some {w : List UInt8} {ts : List (List UInt8)} (hnul : 0 ∉ delimiters)
    (hstart : strtokStart str sp ≠ 0) (h : StringIn m (strtokStart str sp) s)
    (hfits : strtokStart str sp + s.length < 4294967296)
    (hsome : tokens (isDelimiter delimiters) s = w :: ts) :
    ∃ p t s', strtok str delimiters ⟨m, sp⟩ = some (p, t) ∧
      TokenCut delimiters (strtokStart str sp + s.length) p w ts t s' := by
  have hsplit := List.takeWhile_append_dropWhile (p := isDelimiter delimiters) (l := s)
  rw [← tokens_dropWhile] at hsome
  rw [strtok_eq hnul hstart h hfits, strtokResult]
  cases hrest : s.dropWhile (isDelimiter delimiters) with
  | nil => simp [hrest] at hsome
  | cons x r =>
    rw [hrest] at hsplit hsome
    rw [tokens_cons_of_neg (dropWhile_head hrest), List.cons.injEq] at hsome
    have hlen := congrArg List.length hsplit
    rw [List.length_append] at hlen
    rw [← hsplit] at h
    have ht : WordEnded delimiters m _ _ _ := wordEnd_ended h.drop
    have hle := ht.le
    have hfits' := ht.fits
    refine ⟨_, _, afterWord (isDelimiter delimiters) (x :: r), rfl, hsome.1 ▸ ht.word, ?_, ht.rest,
      ?_, hsome.2, ?_⟩
    all_goals omega

/-! ## All tokens -/

/-- `strtok(NULL, delimiters)` again and again up to the first 0, when the last token was
`token`. -/
def strtokAllLoop (delimiters : List UInt8) : (fuel token : ℕ) → ProgramM (List ℕ)
  | 0, _ => fault
  | fuel + 1, token => do
    if token = 0 then return []
    let next ← strtok 0 delimiters
    let rest ← strtokAllLoop delimiters fuel next
    return token :: rest

/-- The tokens of the string at `str`. -/
def strtokAll (fuel str : ℕ) (delimiters : List UInt8) : ProgramM (List ℕ) := do
  let token ← strtok str delimiters
  strtokAllLoop delimiters fuel token

theorem strtokAllLoop_succ (fuel token : ℕ) : strtokAllLoop delimiters (fuel + 1) token =
    if token = 0 then pure [] else do
      let rest ← strtokAll fuel 0 delimiters
      return token :: rest := by
  rw [strtokAllLoop, strtokAll, bind_assoc]

/-- What is left when all tokens of the string `s` at `a` have been taken. -/
structure Tokenized (delimiters : List UInt8) (m : ℕ → UInt8) (a : ℕ) (s : List UInt8)
    (t : ProgramState) : Prop where
  sp : t.sp = 0
  word : ∀ i ∈ tokenStarts (isDelimiter delimiters) s,
    StringIn t.mem (a + i) (wordAt (isDelimiter delimiters) s i)
  outside : ∀ x, x < a ∨ a + s.length ≤ x → t.mem x = m x

/-- The first token has been cut off, and what is left has been tokenized. -/
theorem Tokenized.cons {x : UInt8} {r : List UInt8} {p : ℕ} {t : ProgramState}
    (h : StringIn m a s) (hrest : s.dropWhile (isDelimiter delimiters) = x :: r)
    (hp : p = a + (s.takeWhile (isDelimiter delimiters)).length)
    (ht : Tokenized delimiters (wordEnd delimiters m p (x :: r)).mem
      (wordEnd delimiters m p (x :: r)).sp (afterWord (isDelimiter delimiters) (x :: r)) t) :
    Tokenized delimiters m a s t := by
  have hsplit := List.takeWhile_append_dropWhile (p := isDelimiter delimiters) (l := s)
  rw [hrest] at hsplit
  have hlen := congrArg List.length hsplit
  rw [List.length_append] at hlen
  have hword : StringIn m p (x :: r) := by
    rw [← hsplit] at h
    exact hp ▸ h.drop
  have hended : WordEnded delimiters m p (x :: r) _ := wordEnd_ended hword
  have hsp : (wordEnd delimiters m p (x :: r)).sp = _ := wordEnd_sp
  have hafter := length_afterWord delimiters (x :: r)
  have hle := wordLength_le delimiters (x :: r)
  refine ⟨ht.sp, fun j hj => ?_, fun y hy => ?_⟩
  · rw [tokenStarts_eq_cons hrest, List.mem_cons] at hj
    rcases hj with rfl | hj
    · -- the other calls store behind the NUL of the first token
      have hfirst := wordAt_dropWhile (p := isDelimiter delimiters) s 0
      rw [Nat.add_zero, hrest] at hfirst
      rw [hfirst, ← hp]
      refine hended.word.congr fun i hi => ht.outside _ ?_
      have hi : i ≤ wordLength delimiters (x :: r) := hi
      omega
    · obtain ⟨i, hi, rfl⟩ := List.mem_map.mp hj
      rw [wordAt_dropWhile, hrest, wordAt_afterWord, ← Nat.add_assoc, ← hp, ← wordLength,
        ← wordEnd_place (lt_of_mem_tokenStarts hi)]
      exact ht.word i hi
  · rw [ht.outside y (by omega)]
    exact wordEnd_mem (by omega)

/-- From any place of the string on. -/
theorem strtokAll_run (hnul : 0 ∉ delimiters) : ∀ (fuel : ℕ) {str sp : ℕ} {m : ℕ → UInt8}
    {s : List UInt8}, strtokStart str sp ≠ 0 → StringIn m (strtokStart str sp) s →
    strtokStart str sp + s.length < 4294967296 →
    (tokenStarts (isDelimiter delimiters) s).length < fuel →
    ∃ t, strtokAll fuel str delimiters ⟨m, sp⟩ =
        some ((tokenStarts (isDelimiter delimiters) s).map (strtokStart str sp + ·), t) ∧
      Tokenized delimiters m (strtokStart str sp) s t
  | fuel + 1, str, sp, m, s, hstart, h, hfits, hfuel => by
    have hsplit := List.takeWhile_append_dropWhile (p := isDelimiter delimiters) (l := s)
    have hcall := strtok_eq hnul hstart h hfits
    rw [strtokResult] at hcall
    generalize strtokStart str sp = a at *
    cases hrest : s.dropWhile (isDelimiter delimiters) with
    | nil =>
      rw [hrest] at hcall
      have hnone : tokenStarts (isDelimiter delimiters) s = [] := by
        rw [tokenStarts_dropWhile, hrest]
        rfl
      rw [hnone]
      refine ⟨⟨m, 0⟩, ?_, rfl, fun i hi => absurd (hnone ▸ hi) List.not_mem_nil, fun _ _ => rfl⟩
      simp only [strtokAll, run_bind, hcall, Option.bind_some, strtokAllLoop, if_pos, run_pure,
        List.map_nil]
    | cons x r =>
      have hstarts := tokenStarts_eq_cons hrest
      rw [hrest] at hcall hsplit
      have hlen := congrArg List.length hsplit
      rw [List.length_append] at hlen
      generalize hp : a + (s.takeWhile (isDelimiter delimiters)).length = p at *
      have hword : StringIn m p (x :: r) := by
        rw [← hsplit] at h
        exact hp ▸ h.drop
      have hended : WordEnded delimiters m p (x :: r) _ := wordEnd_ended hword
      have hle := hended.le
      have hfits₁ := hended.fits
      have hstart₁ : strtokStart 0 (wordEnd delimiters m p (x :: r)).sp = _ := if_neg (by omega)
      have hne₁ : strtokStart 0 (wordEnd delimiters m p (x :: r)).sp ≠ 0 := by omega
      have hrest₁ := hended.rest
      rw [← hstart₁] at hrest₁
      obtain ⟨t, hrun, ht⟩ := strtokAll_run hnul fuel hne₁ hrest₁ (by omega)
        (by simpa [hstarts] using hfuel)
      rw [hstart₁] at hrun ht
      refine ⟨t, ?_, .cons h hrest hp.symm ht⟩
      have hmap : (tokenStarts (isDelimiter delimiters) s).map (a + ·) =
          p :: (tokenStarts (isDelimiter delimiters) (afterWord (isDelimiter delimiters)
            (x :: r))).map ((wordEnd delimiters m p (x :: r)).sp + ·) := by
        rw [hstarts, List.map_cons, hp, List.map_map]
        refine congrArg _ (List.map_congr_left fun i hi => ?_)
        rw [Function.comp_apply, ← Nat.add_assoc, hp, ← wordLength,
          wordEnd_place (lt_of_mem_tokenStarts hi)]
      have hp0 : p ≠ 0 := by omega
      rw [hmap, strtokAll, run_bind, hcall, Option.bind_some, strtokAllLoop_succ, if_neg hp0,
        run_bind, hrun, Option.bind_some, run_pure]

/-- The calls up to the first 0 return the places of the tokens of the string in order, which are
the tokens when they have all been made. Nothing outside the string is stored to. -/
theorem strtokAll_splits {fuel : ℕ} (hd : ∀ c ∈ delimiters, c ≠ 0) (ha : a ≠ 0) (h : StringIn m a s)
    (hfits : a + s.length < 4294967296)
    (hfuel : (tokens (isDelimiter delimiters) s).length < fuel) :
    ∃ ps t, strtokAll fuel a delimiters ⟨m, 0⟩ = some (ps, t) ∧
      ps = (tokenStarts (isDelimiter delimiters) s).map (a + ·) ∧
      List.Forall₂ (StringIn t.mem) ps (tokens (isDelimiter delimiters) s) ∧ t.sp = 0 ∧
      ∀ x, x < a ∨ a + s.length ≤ x → t.mem x = m x := by
  have hnul : 0 ∉ delimiters := fun hmem => hd 0 hmem rfl
  rw [← map_wordAt, List.length_map] at hfuel
  obtain ⟨t, hrun, ht⟩ := strtokAll_run hnul fuel (show strtokStart a 0 ≠ 0 from ha) h hfits hfuel
  refine ⟨_, t, hrun, rfl, ?_, ht.sp, ht.outside⟩
  rw [← map_wordAt, List.forall₂_map_left_iff, List.forall₂_map_right_iff, List.forall₂_same]
  exact ht.word

/-- The string `a,,b`. -/
theorem strtokAll_two : ∃ ps t, strtokAll 3 4 [44] ⟨fun x => [97, 44, 44, 98].getD (x - 4) 0, 0⟩ =
      some (ps, t) ∧ ps = [4, 7] ∧ List.Forall₂ (StringIn t.mem) ps [[97], [98]] ∧ t.sp = 0 ∧
    ∀ x, x < 4 ∨ 8 ≤ x → t.mem x = [97, 44, 44, 98].getD (x - 4) 0 :=
  strtokAll_splits (s := [97, 44, 44, 98]) (by simp) (by decide)
    ⟨by simp, by decide⟩ (by decide) (by decide)

end Hyperion
