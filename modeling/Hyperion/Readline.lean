import Hyperion.Lib.CString
import Hyperion.Lib.Partial
import Mathlib.Algebra.Group.Nat.Even

/-!
# Reading a line

`hardikhyperionos_terminal_readline` of the programs' library reads keys into a buffer. A
backspace takes the last character back, but on an empty line it is stored like a character, so
that the line is the one that was edited exactly if an even number of backspaces came when there
was nothing to take back (`terminalReadline_edits_iff`).

`readLine` is the editor that the function should be : keys are taken until carriage return or until
the line has its greatest length, a backspace removes the last character if there is one, and any
other key appends itself (`editLine`). `editBuffer` is what the loop makes of a key. The two run
side by side over the same keys (`readLine_strayPrefix`) : what the code has in front of the line is
either nothing or one backspace, and every stray backspace changes the one for the other
(`strayPrefix`).

The state of the program has the keys that are going to be pressed, with zeros while none is
(`hardikhyperionosGetkey`). `LineHeld` is the invariant of the loop : the buffer holds the line, and
no store was out of it.
-/

namespace Hyperion

open Partial CString

/-- A program that reads a line. -/
structure TerminalReader where
  /-- The bytes from `out` on, by index. -/
  out : Int → UInt8
  /-- What `hardikhyperionos_getkey` is going to return, 0 while no key is pressed. -/
  keys : List UInt8
  /-- The characters given to `hardikhyperionos_putchar`. -/
  output : List UInt8
  /-- History : the indices stored to. No function reads it. -/
  stores : List Int

abbrev TerminalReaderM := Prog TerminalReader

/-- Before the call, with the bytes `out` in the buffer. -/
def TerminalReader.start (out : Int → UInt8) (keys : List UInt8) : TerminalReader :=
  ⟨out, keys, [], []⟩

/-! ## `hardikhyperionos.c` -/

/-- When nothing is going to be pressed any more the call is never over. -/
def hardikhyperionosGetkey : TerminalReaderM UInt8 := fun s =>
  match s.keys with
  | [] => none
  | key :: keys => some (key, { s with keys := keys })

def hardikhyperionosPutchar (c : UInt8) : TerminalReaderM Unit :=
  modify fun s => { s with output := s.output ++ [c] }

/-- `out[i] = c`. -/
def storeOut (i : Int) (c : UInt8) : TerminalReaderM Unit := modify fun s => { s with
  out := fun j => if j = i then c else s.out j
  stores := s.stores ++ [i] }

/-- The loop of `hardikhyperionos_getkeyblock`, `fuel` rounds. -/
def getkeyblockLoop : (fuel : ℕ) → TerminalReaderM UInt8
  | 0 => fault
  | fuel + 1 => do
    let val ← hardikhyperionosGetkey
    if val = 0 then getkeyblockLoop fuel else return val

/-- Each round takes one of the keys. -/
def hardikhyperionosGetkeyblock : TerminalReaderM UInt8 := do
  let s ← get
  getkeyblockLoop s.keys.length

/-- The loop of `hardikhyperionos_terminal_readline` from `i` on, `fuel` rounds. -/
def terminalReadlineLoop (max : Int) (outputWhileTyping : Bool) : (fuel : ℕ) → (i : Int) →
    TerminalReaderM Int
  | 0, _ => fault
  | fuel + 1, i =>
    if i < max - 1 then do
      let key ← hardikhyperionosGetkeyblock
      if key = 13 then return i
      if outputWhileTyping then hardikhyperionosPutchar key
      if key = 0x08 ∧ 1 ≤ i then
        storeOut (i - 1) 0
        terminalReadlineLoop max outputWhileTyping fuel (i - 2 + 1)
      else
        storeOut i key
        terminalReadlineLoop max outputWhileTyping fuel (i + 1)
    else return i

def hardikhyperionosTerminalReadline (max : Int) (outputWhileTyping : Bool) :
    TerminalReaderM Unit := do
  let s ← get
  let i ← terminalReadlineLoop max outputWhileTyping (s.keys.length + 1) 0
  storeOut i 0

/-! ## Editors -/

/-- The keys that are pressed. -/
def pressed (keys : List UInt8) : List UInt8 := keys.filter (· ≠ 0)

/-- A line is edited until carriage return is pressed or it has `limit` characters : the line,
and the keys that are left. -/
def readLine (edit : List UInt8 → UInt8 → List UInt8) (limit : ℕ) :
    (line keys : List UInt8) → Option (List UInt8 × List UInt8)
  | line, [] => if line.length = limit then some (line, []) else none
  | line, key :: keys =>
    if line.length = limit then some (line, key :: keys)
    else if key = 13 then some (line, keys)
    else readLine edit limit (edit line key) keys

/-- A backspace removes the last character, any other key appends one. -/
def editLine (line : List UInt8) (key : UInt8) : List UInt8 :=
  if key = 0x08 then line.dropLast else line ++ [key]

/-- What the loop makes of a key : on an empty line a backspace is a character. -/
def editBuffer (line : List UInt8) (key : UInt8) : List UInt8 :=
  if key = 0x08 ∧ line ≠ [] then line.dropLast else line ++ [key]

/-- The number of backspaces among `keys` that come on an empty line. -/
def strayBackspaces : (line keys : List UInt8) → ℕ
  | _, [] => 0
  | line, key :: keys =>
    (if key = 0x08 ∧ line = [] then 1 else 0) + strayBackspaces (editLine line key) keys

section Editors

variable {edit : List UInt8 → UInt8 → List UInt8} {limit n : ℕ}
  {line line' l keys ks rest rest' : List UInt8} {key : UInt8}

/-- No more keys are left than there were. -/
theorem readLine_length_le : ∀ {line keys : List UInt8},
    readLine edit limit line keys = some (l, rest) → rest.length ≤ keys.length
  | line, [], h => by
    rw [readLine] at h
    split_ifs at h
    cases h
    exact le_rfl
  | line, key :: keys, h => by
    rw [readLine] at h
    split_ifs at h
    · cases h
      exact le_rfl
    · cases h
      exact Nat.le_succ _
    · exact (readLine_length_le h).trans (Nat.le_succ _)

/-- A call that takes no key found the line full. -/
theorem readLine_of_none (h : readLine edit limit line keys = some (l, keys)) :
    line.length = limit ∧ l = line := by
  cases keys with
  | nil =>
    rw [readLine] at h
    split_ifs at h with hfull
    cases h
    exact ⟨hfull, rfl⟩
  | cons key keys =>
    rw [readLine] at h
    split_ifs at h with hfull hret
    · cases h
      exact ⟨hfull, rfl⟩
    · have hlen := congrArg (fun x => x.2.length) (Option.some.inj h)
      simp at hlen
    · have hlen := readLine_length_le h
      rw [List.length_cons] at hlen
      omega

/-- What the backspaces on an empty line have put in front. -/
def strayPrefix (n : ℕ) : List UInt8 := if Even n then [] else [0x08]

theorem editBuffer_strayPrefix (n : ℕ) (line : List UInt8) (key : UInt8) :
    editBuffer (strayPrefix n ++ line) key =
      strayPrefix (n + if key = 0x08 ∧ line = [] then 1 else 0) ++ editLine line key := by
  by_cases hkey : key = 0x08
  · by_cases hline : line = []
    · rw [if_pos ⟨hkey, hline⟩, hkey, hline]
      by_cases hn : Even n <;> simp [strayPrefix, editBuffer, editLine, hn, Nat.even_add_one]
    · rw [if_neg fun h => hline h.2, editBuffer, editLine, if_pos hkey,
        if_pos ⟨hkey, by simp [hline]⟩,
        List.dropLast_append_of_ne_nil hline, Nat.add_zero]
  · rw [if_neg fun h => hkey h.1, editBuffer, editLine, if_neg hkey, if_neg fun h => hkey h.1,
      List.append_assoc, Nat.add_zero]

theorem length_editBuffer_le : (editBuffer line key).length ≤ line.length + 1 := by
  unfold editBuffer
  split_ifs
  · rw [List.length_dropLast]
    omega
  · simp

/-- The two editors side by side over the keys `ks`. -/
theorem readLine_strayPrefix : ∀ {ks line : List UInt8} {n : ℕ},
    (strayPrefix n ++ line).length ≤ limit →
    readLine editBuffer limit (strayPrefix n ++ line) (ks ++ rest) = some (l, rest) →
    (∀ l', readLine editLine limit line (ks ++ rest) = some (l', rest) →
      l = strayPrefix (n + strayBackspaces line ks) ++ l') ∧
    (Even (n + strayBackspaces line ks) →
      readLine editLine limit line (ks ++ rest) = some (l, rest))
  | [], line, n, hle, h => by
    obtain ⟨hfull, rfl⟩ := readLine_of_none h
    refine ⟨fun l' h' => ?_, fun heven => ?_⟩
    · rw [(readLine_of_none h').2]
      rfl
    · have hnone : strayPrefix n = [] := if_pos heven
      rw [hnone, List.nil_append] at hfull ⊢
      cases rest <;> exact if_pos hfull
  | key :: ks, line, n, hle, h => by
    rw [List.cons_append, readLine] at h
    split_ifs at h with hfull hret
    · have hlen := congrArg (fun x => x.2.length) (Option.some.inj h)
      simp at hlen
      omega
    all_goals
      have hlt : line.length < limit := by
        rw [List.length_append] at hle hfull
        omega
      rw [List.cons_append, readLine, if_neg hlt.ne]
    · obtain ⟨rfl, hks⟩ := Prod.mk.inj (Option.some.inj h)
      have hnil : ks = [] := List.self_eq_append_left.mp hks.symm
      subst hnil
      rw [if_pos hret]
      have hcount : strayBackspaces line [key] = 0 := by simp [strayBackspaces, hret]
      rw [hcount, Nat.add_zero]
      refine ⟨fun l' h' => ?_, fun heven => ?_⟩
      · cases Option.some.inj h'
        rfl
      · rw [strayPrefix, if_pos heven]
        rfl
    · rw [if_neg hret, strayBackspaces, ← Nat.add_assoc]
      rw [editBuffer_strayPrefix] at h
      refine readLine_strayPrefix ?_ h
      rw [← editBuffer_strayPrefix]
      exact length_editBuffer_le.trans (by omega)

end Editors

/-! ## The loop -/

section Loop

variable {max i : Int} {echo : Bool} {s s' : TerminalReader} {line l rest : List UInt8}
  {key : UInt8}

theorem pressed_ne_zero {keys : List UInt8} : ∀ c ∈ pressed keys, c ≠ 0 := fun c hc => by
  simpa using (List.mem_filter.mp hc).2

/-- The state after the keys have been taken up to `key`. -/
structure KeyTaken (s : TerminalReader) (key : UInt8) (s' : TerminalReader) : Prop where
  pressed : pressed s.keys = key :: pressed s'.keys
  out : s'.out = s.out
  stores : s'.stores = s.stores
  less : s'.keys.length < s.keys.length

theorem KeyTaken.ne_zero (h : KeyTaken s key s') : key ≠ 0 :=
  pressed_ne_zero key (h.pressed ▸ List.mem_cons_self)

theorem getkeyblockLoop_meets : ∀ (fuel : ℕ) (s : TerminalReader),
    Meets False (getkeyblockLoop fuel) s (KeyTaken s)
  | 0, _ => Meets.fault_iff.mpr not_false
  | fuel + 1, s => by
    rw [getkeyblockLoop, Meets.bind_iff]
    cases hkeys : s.keys with
    | nil =>
      have hnone : hardikhyperionosGetkey s = none := by rw [hardikhyperionosGetkey, hkeys]
      exact ⟨fun _ _ h => (by rw [hnone] at h; cases h), fun _ => not_false⟩
    | cons val keys =>
      have hsome : hardikhyperionosGetkey s = some (val, { s with keys := keys }) := by
        rw [hardikhyperionosGetkey, hkeys]
      refine .of_run_eq hsome (Meets.ite_iff.mpr ⟨fun hzero => ?_, fun hval => ?_⟩)
      · refine (getkeyblockLoop_meets fuel _).mono fun key s' h => ⟨?_, h.out, h.stores, ?_⟩
        · rw [hkeys, hzero]
          exact h.pressed
        · rw [hkeys]
          exact h.less.trans (Nat.lt_succ_self _)
      · refine Meets.pure_iff.mpr ⟨?_, rfl, rfl, ?_⟩
        · rw [hkeys]
          exact List.filter_cons_of_pos (by simpa using hval)
        · rw [hkeys]
          exact Nat.lt_succ_self _

theorem hardikhyperionosGetkeyblock_meets :
    Meets False hardikhyperionosGetkeyblock s (KeyTaken s) :=
  Meets.bind_iff.mpr (Meets.get_iff.mpr (getkeyblockLoop_meets _ s))

/-- The buffer holds `line`, and no store was out of it. -/
structure LineHeld (max : Int) (s : TerminalReader) (line : List UInt8) : Prop where
  ne_zero : ∀ c ∈ line, c ≠ 0
  byte : ∀ x < line.length, s.out x = line.getD x 0
  le : (line.length : Int) ≤ max - 1
  stores : ∀ x ∈ s.stores, 0 ≤ x ∧ x < max

theorem LineHeld.congr (h : LineHeld max s line) (hout : s'.out = s.out)
    (hstores : s'.stores = s.stores) : LineHeld max s' line :=
  ⟨h.ne_zero, by rw [hout]; exact h.byte, h.le, by rw [hstores]; exact h.stores⟩

theorem LineHeld.appended (h : LineHeld max s line) (hlt : (line.length : Int) < max - 1)
    (hkey : key ≠ 0) : Meets False (storeOut line.length key) s fun _ s' => s'.keys = s.keys ∧
      LineHeld max s' (line ++ [key]) := by
  refine Meets.modify_iff.mpr ⟨rfl, fun c hc => ?_, fun x hx => ?_, by simp; omega, fun x hx => ?_⟩
  · rcases List.mem_append.mp hc with hc | hc
    · exact h.ne_zero c hc
    · rwa [List.mem_singleton.mp hc]
  · rw [List.length_append, List.length_singleton] at hx
    show (if (x : Int) = _ then _ else _) = _
    by_cases he : x = line.length
    · rw [if_pos (by rw [he]), he]
      simp
    · rw [if_neg (by omega), h.byte x (by omega), List.getD_append _ _ _ _ (by omega)]
  · rcases List.mem_append.mp hx with hx | hx
    · exact h.stores x hx
    · rw [List.mem_singleton.mp hx]
      omega

theorem LineHeld.removed (h : LineHeld max s line) (hne : line ≠ []) :
    Meets False (storeOut (line.length - 1) 0) s fun _ s' => s'.keys = s.keys ∧
      LineHeld max s' line.dropLast := by
  have hle := h.le
  have hpos := List.length_pos_iff.mpr hne
  refine Meets.modify_iff.mpr ⟨rfl, fun c hc => h.ne_zero c (List.mem_of_mem_dropLast hc),
    fun x hx => ?_, ?_, fun x hx => ?_⟩
  · rw [List.length_dropLast] at hx
    show (if (x : Int) = _ then _ else _) = _
    rw [if_neg (by omega), h.byte x (by omega), List.getD_eq_getElem?_getD,
      List.getD_eq_getElem?_getD, List.getElem?_dropLast, if_pos hx]
  · rw [List.length_dropLast]
    omega
  · rcases List.mem_append.mp hx with hx | hx
    · exact h.stores x hx
    · rw [List.mem_singleton.mp hx]
      omega

/-- One key is stored and the loop goes on with the edited line. -/
theorem LineHeld.edited {loop : Int → TerminalReaderM Int} {Q : Int → TerminalReader → Prop}
    (h : LineHeld max s line) (hlt : (line.length : Int) < max - 1) (hkey : key ≠ 0)
    (hloop : ∀ s', s'.keys = s.keys → LineHeld max s' (editBuffer line key) →
      Meets False (loop (editBuffer line key).length) s' Q) :
    Meets False (if key = 0x08 ∧ (1 : Int) ≤ line.length then do
        storeOut (line.length - 1) 0
        loop (line.length - 2 + 1)
      else do
        storeOut line.length key
        loop (line.length + 1)) s Q := by
  have hpos : (1 : Int) ≤ line.length ↔ line ≠ [] := by
    rw [← List.length_pos_iff]
    omega
  rw [editBuffer] at hloop
  refine Meets.ite_iff.mpr ⟨fun hback => ?_, fun hchar => ?_⟩
  · rw [hpos] at hback
    rw [if_pos hback] at hloop
    refine .bind (h.removed hback.2) fun _ s₁ ⟨hkeys, h₁⟩ => ?_
    have hlen : (line.length : Int) - 2 + 1 = line.dropLast.length := by
      have := List.length_pos_iff.mpr hback.2
      rw [List.length_dropLast]
      omega
    rw [hlen]
    exact hloop s₁ hkeys h₁
  · rw [hpos] at hchar
    rw [if_neg hchar] at hloop
    refine .bind (h.appended hlt hkey) fun _ s₁ ⟨hkeys, h₁⟩ => ?_
    have hlen : (line.length : Int) + 1 = (line ++ [key]).length := by simp
    rw [hlen]
    exact hloop s₁ hkeys h₁

theorem terminalReadlineLoop_meets : ∀ (fuel : ℕ) {line : List UInt8} {s : TerminalReader},
    LineHeld max s line → Meets False (terminalReadlineLoop max echo fuel line.length) s fun i s' =>
      ∃ l, readLine editBuffer (max - 1).toNat line (pressed s.keys) = some (l, pressed s'.keys) ∧
        i = l.length ∧ LineHeld max s' l
  | 0, _, _, _ => Meets.fault_iff.mpr not_false
  | fuel + 1, line, s, h => by
    rw [terminalReadlineLoop, Meets.ite_iff]
    refine ⟨fun hlt => ?_, fun hnot => ?_⟩
    · refine .bind hardikhyperionosGetkeyblock_meets fun key s₁ hkey => ?_
      have h₁ : LineHeld max s₁ line := h.congr hkey.out hkey.stores
      have hnotfull : line.length ≠ (max - 1).toNat := by omega
      rw [hkey.pressed, readLine, if_neg hnotfull]
      refine Meets.ite_iff.mpr ⟨fun hret => ?_, fun hret => ?_⟩
      · rw [if_pos hret]
        exact Meets.pure_iff.mpr ⟨line, rfl, rfl, h₁⟩
      rw [if_neg hret]
      refine Meets.ite_iff.mpr ⟨fun _ => Meets.bind_iff.mpr (Meets.modify_iff.mpr ?_), fun _ => ?_⟩
      · have h₂ : LineHeld max { s₁ with output := s₁.output ++ [key] } line := h₁.congr rfl rfl
        refine h₂.edited hlt hkey.ne_zero fun s₃ hkeys h₃ => ?_
        rw [← show s₃.keys = s₁.keys from hkeys]
        exact terminalReadlineLoop_meets fuel h₃
      · refine h₁.edited hlt hkey.ne_zero fun s₃ hkeys h₃ => ?_
        rw [← hkeys]
        exact terminalReadlineLoop_meets fuel h₃
    · have hfull : line.length = (max - 1).toNat := by
        have := h.le
        omega
      refine Meets.pure_iff.mpr ⟨line, ?_, rfl, h⟩
      cases pressed s.keys <;> exact if_pos hfull

/-- What a call leaves. -/
structure LineRead (edit : List UInt8 → UInt8 → List UInt8) (max : Int) (keys : List UInt8)
    (s' : TerminalReader) : Prop where
  line : ∃ line, readLine edit (max - 1).toNat [] (pressed keys) = some (line, pressed s'.keys) ∧
    StringIn (fun x : ℕ => s'.out x) 0 line
  stores : ∀ x ∈ s'.stores, 0 ≤ x ∧ x < max

theorem hardikhyperionosTerminalReadline_meets {out : Int → UInt8} {keys : List UInt8}
    (hmax : 2 ≤ max) : Meets False (hardikhyperionosTerminalReadline max echo)
      (TerminalReader.start out keys) fun _ s' => LineRead editBuffer max keys s' := by
  have hstart : LineHeld max (TerminalReader.start out keys) [] :=
    ⟨fun _ h => absurd h List.not_mem_nil, fun _ h => absurd h (Nat.not_lt_zero _), by simp; omega,
      fun _ h => absurd h List.not_mem_nil⟩
  refine Meets.bind_iff.mpr (Meets.get_iff.mpr (.bind (terminalReadlineLoop_meets _ hstart) ?_))
  rintro _ s₁ ⟨l, hread, rfl, h⟩
  have hle := h.le
  refine Meets.modify_iff.mpr ⟨⟨l, hread, h.ne_zero, fun x hx => ?_⟩, fun x hx => ?_⟩
  · show (if ((0 + x : ℕ) : Int) = _ then _ else _) = _
    rw [Nat.zero_add]
    by_cases he : x = l.length
    · rw [if_pos (by rw [he]), he, List.getD_eq_default _ _ le_rfl]
    · rw [if_neg (by omega), h.byte x (by omega)]
  · rcases List.mem_append.mp hx with hx | hx
    · exact h.stores x hx
    · rw [List.mem_singleton.mp hx]
      omega

/-- A call that has taken the keys `ks` leaves the line that was edited exactly if an even number
of backspaces among them came on an empty line. -/
theorem terminalReadline_edits_iff {out : Int → UInt8} {keys ks : List UInt8} (hmax : 2 ≤ max)
    (hrun : hardikhyperionosTerminalReadline max echo (TerminalReader.start out keys) =
      some ((), s'))
    (hks : pressed keys = ks ++ pressed s'.keys) :
    LineRead editLine max keys s' ↔ Even (strayBackspaces [] ks) := by
  have hcode := (hardikhyperionosTerminalReadline_meets hmax).of_eq hrun
  obtain ⟨l, hread, hl⟩ := hcode.line
  have hread₀ : readLine editBuffer (max - 1).toNat (strayPrefix 0 ++ [])
      (ks ++ pressed s'.keys) = some (l, pressed s'.keys) := by
    rw [← hks]
    exact hread
  have hboth := readLine_strayPrefix (by exact Nat.zero_le _) hread₀
  rw [← hks, Nat.zero_add] at hboth
  constructor
  · rintro ⟨⟨l', hread', hl'⟩, -⟩
    have hsame := hboth.1 l' hread'
    rw [hl.unique hl'] at hsame
    by_contra hodd
    rw [strayPrefix, if_neg hodd] at hsame
    have hlen := congrArg List.length hsame
    simp at hlen
  · exact fun heven => ⟨⟨l, hboth.2 heven, hl⟩, hcode.stores⟩

end Loop

/-- A character that is taken back. -/
theorem terminalReadline_edits_one : ∃ s', hardikhyperionosTerminalReadline 10 true
      (TerminalReader.start (fun _ => 1) [97, 0x08, 0, 98, 13, 99]) = some ((), s') ∧
    LineRead editLine 10 [97, 0x08, 0, 98, 13, 99] s' := by
  obtain ⟨s', hrun, hleft⟩ : ∃ s', hardikhyperionosTerminalReadline 10 true
      (TerminalReader.start (fun _ => 1) [97, 0x08, 0, 98, 13, 99]) = some ((), s') ∧
      pressed s'.keys = [99] := ⟨_, rfl, rfl⟩
  have hks : pressed [97, 0x08, 0, 98, 13, 99] = [97, 0x08, 98, 13] ++ pressed s'.keys := by
    rw [hleft]
    rfl
  exact ⟨s', hrun, (terminalReadline_edits_iff (by decide) hrun hks).mpr (by decide)⟩

/-- A backspace on an empty line stays in the buffer. -/
theorem terminalReadline_stray : ∃ s', hardikhyperionosTerminalReadline 10 true
      (TerminalReader.start (fun _ => 1) [0x08, 97, 13]) = some ((), s') ∧
    s'.out 0 = 0x08 ∧ ¬LineRead editLine 10 [0x08, 97, 13] s' := by
  refine ⟨_, rfl, rfl, fun h => ?_⟩
  obtain ⟨line, hread, hline⟩ := h.line
  cases hread
  exact absurd hline.head (by decide)

end Hyperion
