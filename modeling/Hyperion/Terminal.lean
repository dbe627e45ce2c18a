import Hyperion.Lib.Trace
import Mathlib.Tactic.Common

/-!
# The screen

`kernel.c` : the characters that `print` and the processes write go to the text buffer,
at a cursor of two 16-bit globals. A newline and the wrap at the end of a line take the
cursor to the next line, whether there is one or not, and a backspace at the start of a
line takes the column below zero. Output that does neither stays on the screen
(`terminal_run_onScreen`), and a character that is not in the last column can be taken back
(`terminal_run_undoable_iff`).

The state has a history of the cells that were stored to, which no function reads, so that a store
off the screen is seen also when it is repaired later. `Terminal.Valid` is the invariant : nothing
was stored off the screen, and the cursor is on it. `KeepsCursor` is the condition on a character,
on the state that it is written in : in the last row there is no newline and no wrap, and at the
start of a row behind the first no backspace. A step that does not meet it leaves the cursor off the
screen, and the next printable character goes there (`writechar_off`).

A backspace blanks the cell before the cursor and moves there. The last column is left for the next
row as soon as it is written, and a backspace there takes the column to 65535
(`terminalBackspace_start`), which no character can be taken back from.
-/

namespace Hyperion

/-- `VGA_WIDTH`. -/
abbrev vgaWidth : UInt16 := 80

/-- `VGA_HEIGHT`. -/
abbrev vgaHeight : UInt16 := 20

/-- The globals of `kernel.c`. -/
structure Terminal where
  /-- The words from `0xB8000` on, as `video_memory` is indexed. -/
  videoMemory : Int → UInt16
  terminalRow : UInt16
  terminalCol : UInt16
  /-- History : the cells stored to, by column and row. No function reads it. -/
  stores : List (Int × Int)

/-- The globals before `terminal_initialize`, with the words `m` in the text buffer. -/
def Terminal.boot (m : Int → UInt16) : Terminal := ⟨m, 0, 0, []⟩

/-! ## `kernel.c` -/

/-- A `char` is signed. -/
def terminalMakeChar (c color : UInt8) : UInt16 :=
  (color.toUInt16 <<< 8) ||| (if c < 128 then c.toUInt16 else c.toUInt16 ||| 0xFF00)

def terminalPutchar (x y : Int) (c color : UInt8) (t : Terminal) : Terminal := { t with
  videoMemory := fun i =>
    if i = y * vgaWidth.toNat + x then terminalMakeChar c color else t.videoMemory i
  stores := t.stores ++ [(x, y)] }

mutual

def terminalBackspace (t : Terminal) : Terminal :=
  if t.terminalRow = 0 ∧ t.terminalCol = 0 then t else
  let t := if t.terminalCol = 0 then
      { t with terminalRow := t.terminalRow - 1, terminalCol := vgaWidth } else t
  let t := { t with terminalCol := t.terminalCol - 1 }
  let t := terminalWritechar 0x20 15 t
  { t with terminalCol := t.terminalCol - 1 }
termination_by 1

def terminalWritechar (c color : UInt8) (t : Terminal) : Terminal :=
  if c = 0x0A then { t with terminalCol := 0, terminalRow := t.terminalRow + 1 } else
  if c = 0x08 then terminalBackspace t else
  let t := terminalPutchar t.terminalCol.toNat t.terminalRow.toNat c color t
  let t := { t with terminalCol := t.terminalCol + 1 }
  if vgaWidth ≤ t.terminalCol then { t with terminalCol := 0, terminalRow := t.terminalRow + 1 }
  else t
termination_by if c = 0x08 then 2 else 0
decreasing_by simp_all

end

def terminalInitialize (t : Terminal) : Terminal :=
  let t := { t with terminalRow := 0, terminalCol := 0 }
  (List.range vgaHeight.toNat).foldl (fun t (y : ℕ) =>
    (List.range vgaWidth.toNat).foldl (fun t (x : ℕ) => terminalPutchar x y 0x20 0 t) t) t

/-- The characters of a string, without its NUL. -/
def print (str : List UInt8) (t : Terminal) : Terminal :=
  str.foldl (fun t c => terminalWritechar c 15 t) t

/-! ## What a character does -/

/-- The cell is one of the screen. -/
def OnScreen (cell : Int × Int) : Prop :=
  0 ≤ cell.1 ∧ cell.1 < vgaWidth.toNat ∧ 0 ≤ cell.2 ∧ cell.2 < vgaHeight.toNat

/-- Every store went to a cell of the screen, and the words `m` around it are untouched. -/
structure Terminal.Confined (m : Int → UInt16) (t : Terminal) : Prop where
  stores : ∀ cell ∈ t.stores, OnScreen cell
  frame : ∀ i, i < 0 ∨ (vgaWidth.toNat * vgaHeight.toNat : ℕ) ≤ i → t.videoMemory i = m i

/-- Nothing was stored off the screen and the cursor is on it. -/
structure Terminal.Valid (m : Int → UInt16) (t : Terminal) : Prop extends t.Confined m where
  row : t.terminalRow < vgaHeight
  col : t.terminalCol < vgaWidth

/-- Writing `c` leaves the cursor on the screen : there is a next line where one is needed,
and a backspace is not the first character of a line other than the first. -/
def KeepsCursor (t : Terminal) (c : UInt8) : Prop :=
  if c = 0x0A then t.terminalRow + 1 < vgaHeight else
  if c = 0x08 then t.terminalCol ≠ 0 ∨ t.terminalRow = 0 else
  t.terminalCol + 1 < vgaWidth ∨ t.terminalRow + 1 < vgaHeight

section Step

variable {m : Int → UInt16} {t u : Terminal} {c color : UInt8}

theorem vgaWidth_pos : 0 < vgaWidth := by decide

theorem vgaHeight_pos : 0 < vgaHeight := by decide

theorem Terminal.Confined.putchar (h : t.Confined m) {x y : Int} (hxy : OnScreen (x, y)) :
    (terminalPutchar x y c color t).Confined m where
  stores cell hcell := by
    rcases List.mem_append.mp hcell with hcell | hcell
    · exact h.stores cell hcell
    · rwa [List.mem_singleton.mp hcell]
  frame i hi := by
    have hne : i ≠ y * vgaWidth.toNat + x := by
      unfold OnScreen at hxy
      have hw : vgaWidth.toNat = 80 := rfl
      have hh : vgaHeight.toNat = 20 := rfl
      simp only [hw, hh] at hxy hi ⊢
      omega
    rw [← h.frame i hi]
    exact if_neg hne

theorem Terminal.Valid.cell (h : t.Valid m) :
    OnScreen (t.terminalCol.toNat, t.terminalRow.toNat) := by
  have hrow : t.terminalRow.toNat < vgaHeight.toNat := h.row
  have hcol : t.terminalCol.toNat < vgaWidth.toNat := h.col
  unfold OnScreen
  omega

/-- A character that is neither a newline nor a backspace. -/
theorem terminalWritechar_printable (h10 : c ≠ 0x0A) (h8 : c ≠ 0x08) :
    terminalWritechar c color t =
      if vgaWidth ≤ t.terminalCol + 1 then
        { terminalPutchar t.terminalCol.toNat t.terminalRow.toNat c color t with
          terminalCol := 0, terminalRow := t.terminalRow + 1 }
      else
        { terminalPutchar t.terminalCol.toNat t.terminalRow.toNat c color t with
          terminalCol := t.terminalCol + 1 } := by
  rw [terminalWritechar, if_neg h10, if_neg h8]
  rfl

theorem terminalWritechar_newline :
    terminalWritechar 0x0A color t =
      { t with terminalCol := 0, terminalRow := t.terminalRow + 1 } := by
  rw [terminalWritechar, if_pos rfl]

theorem terminalWritechar_backspace : terminalWritechar 0x08 color t = terminalBackspace t := by
  rw [terminalWritechar, if_neg (by decide), if_pos rfl]

/-- A printable character is stored at the cursor, which then moves on. -/
theorem Terminal.Valid.printable (h : t.Valid m) (h10 : c ≠ 0x0A) (h8 : c ≠ 0x08)
    (hnext : t.terminalCol + 1 < vgaWidth ∨ t.terminalRow + 1 < vgaHeight) :
    (terminalWritechar c color t).Valid m := by
  rw [terminalWritechar_printable h10 h8]
  have hput : (terminalPutchar _ _ c color t).Confined m := h.toConfined.putchar h.cell
  split_ifs with hwrap
  · have hlt : ¬t.terminalCol + 1 < vgaWidth := UInt16.not_lt.mpr hwrap
    exact ⟨⟨hput.stores, hput.frame⟩, hnext.resolve_left hlt, vgaWidth_pos⟩
  · exact ⟨⟨hput.stores, hput.frame⟩, h.row, UInt16.not_le.mp hwrap⟩

/-- A backspace within a line blanks the cell before the cursor and stays there. -/
theorem terminalBackspace_within (h0 : t.terminalCol ≠ 0) (hlt : t.terminalCol < vgaWidth) :
    terminalBackspace t =
      { terminalPutchar (t.terminalCol - 1).toNat t.terminalRow.toNat 0x20 15 t with
        terminalCol := t.terminalCol - 1 } := by
  have hnext : t.terminalCol - 1 + 1 = t.terminalCol := UInt16.sub_add_cancel _ _
  rw [terminalBackspace, if_neg fun h => h0 h.2, if_neg h0]
  simp only [terminalWritechar_printable (c := 0x20) (by decide) (by decide), hnext,
    if_neg (UInt16.not_le.mpr hlt)]
  rfl

/-- A backspace at the start of a line blanks the end of the line before, and takes the
column below zero. -/
theorem terminalBackspace_start (hrow : t.terminalRow ≠ 0) (hcol : t.terminalCol = 0) :
    terminalBackspace t =
      { terminalPutchar 79 (t.terminalRow - 1).toNat 0x20 15 t with
        terminalCol := 0 - 1 } := by
  have hnext : t.terminalRow - 1 + 1 = t.terminalRow := UInt16.sub_add_cancel _ _
  rw [terminalBackspace, if_neg fun h => hrow h.1, if_pos hcol]
  simp only [terminalWritechar_printable (c := 0x20) (by decide) (by decide)]
  rw [if_pos (by decide)]
  simp only [terminalPutchar, hnext]
  rfl

theorem Terminal.Valid.backspace (h : t.Valid m) (hcol : t.terminalCol ≠ 0 ∨ t.terminalRow = 0) :
    (terminalBackspace t).Valid m := by
  by_cases h0 : t.terminalCol = 0
  · have hrow := hcol.resolve_left (not_not.mpr h0)
    rw [terminalBackspace, if_pos ⟨hrow, h0⟩]
    exact h
  · have hback : t.terminalCol - 1 < vgaWidth := by
      have := h.col
      grind
    have hv : Terminal.Valid m { t with terminalCol := t.terminalCol - 1 } :=
      ⟨⟨h.stores, h.frame⟩, h.row, hback⟩
    have hput : (terminalPutchar _ _ 0x20 15 t).Confined m := h.toConfined.putchar hv.cell
    rw [terminalBackspace_within h0 h.col]
    exact ⟨⟨hput.stores, hput.frame⟩, h.row, hback⟩

/-- A character that keeps the cursor on the screen is written on the screen. -/
theorem Terminal.Valid.writechar (h : t.Valid m) (hc : KeepsCursor t c) :
    (terminalWritechar c color t).Valid m := by
  unfold KeepsCursor at hc
  split_ifs at hc with h10 h8
  · subst h10
    rw [terminalWritechar_newline]
    exact ⟨⟨h.stores, h.frame⟩, hc, vgaWidth_pos⟩
  · subst h8
    rw [terminalWritechar_backspace]
    exact h.backspace hc
  · exact h.printable h10 h8 hc

/-- A step that does not keep the cursor on the screen leaves it off. -/
theorem writechar_off (hc : ¬KeepsCursor t c) :
    ¬((terminalWritechar c color t).terminalCol < vgaWidth ∧
      (terminalWritechar c color t).terminalRow < vgaHeight) := by
  unfold KeepsCursor at hc
  split_ifs at hc with h10 h8
  · subst h10
    rw [terminalWritechar_newline]
    exact fun hon => hc hon.2
  · subst h8
    push Not at hc
    have hbelow : ¬(0 - 1 : UInt16) < vgaWidth := by decide
    rw [terminalWritechar_backspace, terminalBackspace_start hc.2 hc.1]
    exact fun hon => hbelow hon.1
  · obtain ⟨hcol, hrow⟩ := not_or.mp hc
    rw [terminalWritechar_printable h10 h8, if_pos (UInt16.not_lt.mp hcol)]
    exact fun hon => hrow hon.2

/-- What was written is on the screen, and the next printable character will be. -/
def StaysOnScreen (m : Int → UInt16) (t : Terminal) : Prop :=
  t.Confined m ∧
    ∀ c color, c ≠ 0x0A → c ≠ 0x08 → (terminalWritechar c color t).Confined m

theorem Terminal.Valid.stays (h : t.Valid m) : StaysOnScreen m t := by
  refine ⟨h.toConfined, fun c color h10 h8 => ?_⟩
  have hput : (terminalPutchar _ _ c color t).Confined m := h.toConfined.putchar h.cell
  rw [terminalWritechar_printable h10 h8]
  split_ifs <;> exact ⟨hput.stores, hput.frame⟩

/-- The cursor is where the next printable character goes. -/
theorem StaysOnScreen.cursor (h : StaysOnScreen m t) :
    t.terminalCol < vgaWidth ∧ t.terminalRow < vgaHeight := by
  have hw := (h.2 0x20 15 (by decide) (by decide)).stores (t.terminalCol.toNat, t.terminalRow.toNat)
  rw [terminalWritechar_printable (by decide) (by decide)] at hw
  have hon : OnScreen (t.terminalCol.toNat, t.terminalRow.toNat) := by
    refine hw ?_
    split_ifs <;> exact List.mem_append_right _ (List.mem_singleton.mpr rfl)
  unfold OnScreen at hon
  constructor
  · exact UInt16.lt_iff_toNat_lt.mpr (by omega)
  · exact UInt16.lt_iff_toNat_lt.mpr (by omega)

/-- In a valid state writing `c` keeps the output on the screen exactly when it keeps the
cursor there. -/
theorem Terminal.Valid.writechar_iff (h : t.Valid m) :
    StaysOnScreen m (terminalWritechar c color t) ↔ KeepsCursor t c := by
  constructor
  · intro hs
    by_contra hc
    exact writechar_off hc hs.cursor
  · intro hc
    exact (h.writechar hc).stays

end Step

/-! ## Runs -/

/-- A character is written. -/
def TerminalStep (t : Terminal) (x : UInt8 × UInt8) (u : Terminal) : Prop :=
  u = terminalWritechar x.1 x.2 t

section Runs

variable {m : Int → UInt16} {t u : Terminal} {c color : UInt8}
  {tr : List (Terminal × (UInt8 × UInt8) × Terminal)}

/-- What every store to the screen keeps, the clearing of the screen keeps. -/
theorem terminalInitialize_induction {I : Terminal → Prop}
    (h : I { t with terminalRow := 0, terminalCol := 0 })
    (hput : ∀ t (x y : ℕ), x < 80 → y < 20 → I t → I (terminalPutchar x y 0x20 0 t)) :
    I (terminalInitialize t) :=
  List.foldlRecOn _ _ h fun _ ht y hy =>
    List.foldlRecOn _ _ ht fun _ ht x hx =>
      hput _ x y (List.mem_range.mp hx) (List.mem_range.mp hy) ht

theorem terminalInitialize_valid : (terminalInitialize (.boot m)).Valid m := by
  refine terminalInitialize_induction ⟨⟨by simp [Terminal.boot], fun _ _ => rfl⟩, ?_, ?_⟩ ?_
  · exact vgaHeight_pos
  · exact vgaWidth_pos
  · intro t x y hx hy ht
    have hon : OnScreen ((x : Int), (y : Int)) := by
      have hw : vgaWidth.toNat = 80 := rfl
      have hh : vgaHeight.toNat = 20 := rfl
      unfold OnScreen
      omega
    exact ⟨ht.toConfined.putchar hon, ht.row, ht.col⟩

/-- The screen is cleared with the cursor in its first cell. -/
theorem terminalInitialize_cursor :
    (terminalInitialize t).terminalRow = 0 ∧ (terminalInitialize t).terminalCol = 0 :=
  terminalInitialize_induction (I := fun t => t.terminalRow = 0 ∧ t.terminalCol = 0) ⟨rfl, rfl⟩
    fun _ _ _ _ _ h => h

/-- Output that keeps the cursor on the screen is stored on the screen only, and a step
that does not is followed by a store off the screen if a printable character comes next. -/
theorem terminal_run_onScreen (h : Trace TerminalStep (terminalInitialize (.boot m)) tr u) :
    ((∀ x ∈ tr, KeepsCursor x.1 x.2.1.1) → u.Confined m) ∧
      ((∀ x ∈ tr, StaysOnScreen m x.2.2) ↔ ∀ x ∈ tr, KeepsCursor x.1 x.2.1.1) := by
  have hstep : ∀ t x u, TerminalStep t x u → KeepsCursor t x.1 → t.Valid m → u.Valid m := by
    rintro t x u rfl hc ht
    exact ht.writechar hc
  constructor
  · intro hkeeps
    exact (h.invariant terminalInitialize_valid hstep hkeeps).2.toConfined
  · refine h.forall_iff (P := fun _ _ u => StaysOnScreen m u) terminalInitialize_valid hstep ?_
    rintro t x u rfl ht
    exact ht.writechar_iff

/-- The cursor is at `row` and `col`. -/
structure Terminal.At (t : Terminal) (row col : UInt16) : Prop where
  row : t.terminalRow = row
  col : t.terminalCol = col

theorem Terminal.At.printable {row col : UInt16} (h : t.At row col) (h10 : c ≠ 0x0A) (h8 : c ≠ 0x08)
    (hlt : col + 1 < vgaWidth) : (terminalWritechar c color t).At row (col + 1) := by
  rw [terminalWritechar_printable h10 h8, if_neg (by rw [h.col]; exact UInt16.not_le.mpr hlt)]
  exact ⟨h.row, congrArg (· + 1) h.col⟩

theorem Terminal.At.newline {row col : UInt16} (h : t.At row col) :
    (terminalWritechar 0x0A color t).At (row + 1) 0 := by
  rw [terminalWritechar_newline]
  exact ⟨congrArg (· + 1) h.row, rfl⟩

theorem Terminal.At.backspace {row col : UInt16} (h : t.At row col) (h0 : col ≠ 0)
    (hlt : col < vgaWidth) : (terminalWritechar 0x08 color t).At row (col - 1) := by
  rw [terminalWritechar_backspace, terminalBackspace_within (h.col ▸ h0) (h.col ▸ hlt)]
  exact ⟨h.row, congrArg (· - 1) h.col⟩

/-- The cleared screen. -/
def clearedScreen : Terminal := terminalInitialize (.boot fun _ => 0)

/-- Two characters of which the second is taken back, and a character in the next line. -/
def typedLines : List (Terminal × (UInt8 × UInt8) × Terminal) :=
  let t₁ := terminalWritechar 65 15 clearedScreen
  let t₂ := terminalWritechar 66 15 t₁
  let t₃ := terminalWritechar 0x08 15 t₂
  let t₄ := terminalWritechar 0x0A 15 t₃
  [(clearedScreen, (65, 15), t₁), (t₁, (66, 15), t₂), (t₂, (0x08, 15), t₃), (t₃, (0x0A, 15), t₄),
    (t₄, (67, 15), terminalWritechar 67 15 t₄)]

/-- The run, with the places of the cursor. -/
theorem typedLines_run : ∃ u, Trace TerminalStep clearedScreen typedLines u ∧ u.At 1 1 ∧
    ∀ x ∈ typedLines, ∃ row col, x.1.At row col ∧
      (x.2.1.1, row, col) ∈ [((65 : UInt8), (0 : UInt16), (0 : UInt16)), (66, 0, 1), (0x08, 0, 2),
        (0x0A, 0, 1), (67, 1, 0)] := by
  have h₀ : clearedScreen.At 0 0 := ⟨terminalInitialize_cursor.1, terminalInitialize_cursor.2⟩
  have h₁ : (terminalWritechar 65 15 _).At 0 _ := h₀.printable (by decide) (by decide) (by decide)
  have h₂ : (terminalWritechar 66 15 _).At 0 _ := h₁.printable (by decide) (by decide) (by decide)
  have h₃ : (terminalWritechar 0x08 15 _).At 0 _ := h₂.backspace (by decide) (by decide)
  have h₄ : (terminalWritechar 0x0A 15 _).At _ 0 := h₃.newline
  have h₅ : (terminalWritechar 67 15 _).At _ _ := h₄.printable (by decide) (by decide) (by decide)
  refine ⟨_, .cons rfl (.cons rfl (.cons rfl (.cons rfl (.cons rfl (.nil _))))), h₅, fun x hx => ?_⟩
  simp only [typedLines, List.mem_cons, List.not_mem_nil, or_false] at hx
  rcases hx with rfl | rfl | rfl | rfl | rfl
  · exact ⟨_, _, h₀, by decide⟩
  · exact ⟨_, _, h₁, by decide⟩
  · exact ⟨_, _, h₂, by decide⟩
  · exact ⟨_, _, h₃, by decide⟩
  · exact ⟨_, _, h₄, by decide⟩

theorem terminal_run_onScreen_lines : ∃ u, Trace TerminalStep clearedScreen typedLines u ∧
    u.Confined fun _ => 0 := by
  obtain ⟨u, htrace, -, hat⟩ := typedLines_run
  refine ⟨u, htrace, (terminal_run_onScreen htrace).1 fun x hx => ?_⟩
  obtain ⟨row, col, h, hmem⟩ := hat x hx
  rw [KeepsCursor, h.row, h.col]
  simp only [List.mem_cons, Prod.mk.injEq, List.not_mem_nil, or_false] at hmem
  rcases hmem with ⟨hc, rfl, rfl⟩ | ⟨hc, rfl, rfl⟩ | ⟨hc, rfl, rfl⟩ | ⟨hc, rfl, rfl⟩ |
    ⟨hc, rfl, rfl⟩
  all_goals
    rw [hc]
    decide

/-- A newline, a backspace and a character : it is stored in column 65535. -/
theorem terminal_output_leaves_screen : ∃ tr u,
    Trace TerminalStep (terminalInitialize (.boot fun _ => 0)) tr u ∧ ¬u.Confined fun _ => 0 := by
  obtain ⟨hrow, -⟩ := terminalInitialize_cursor (t := .boot fun _ => 0)
  refine ⟨_, _, .cons (l := (0x0A, 15)) rfl (.cons (l := (0x08, 15)) rfl
    (.cons (l := (65, 15)) rfl (.nil _))), fun h => ?_⟩
  have hon := h.stores (65535, 1)
  rw [terminalWritechar_newline, hrow, terminalWritechar_backspace,
    terminalBackspace_start (by decide +revert) rfl,
    terminalWritechar_printable (by decide) (by decide), if_neg (by decide +revert)] at hon
  have hcell := hon (List.mem_append_right _ (List.mem_singleton.mpr rfl))
  exact absurd hcell.2.1 (by decide)

end Runs

/-! ## Taking a character back -/

section Undo

variable {m : Int → UInt16} {t u : Terminal} {c color color' : UInt8}
  {tr : List (Terminal × (UInt8 × UInt8) × Terminal)}

/-- The step is no backspace at the start of a row other than the first. -/
def KeepsColumn (t : Terminal) (c : UInt8) : Prop :=
  c = 0x08 → t.terminalCol ≠ 0 ∨ t.terminalRow = 0

/-- `u` is `t` with a blank in the cell at the cursor. -/
structure Undone (t u : Terminal) : Prop where
  row : u.terminalRow = t.terminalRow
  col : u.terminalCol = t.terminalCol
  video : u.videoMemory = (terminalPutchar t.terminalCol.toNat t.terminalRow.toNat 0x20 15
    t).videoMemory

/-- A character and then a backspace give the state back but for a blank. -/
def Undoable (t : Terminal) : Prop :=
  ∀ c color color', c ≠ 0x0A → c ≠ 0x08 →
    Undone t (terminalWritechar 0x08 color' (terminalWritechar c color t))

/-- In a row the column stays one of the row exactly when the step is not such a backspace. -/
theorem terminalWritechar_col_iff (h : t.terminalCol < vgaWidth) :
    (terminalWritechar c color t).terminalCol < vgaWidth ↔ KeepsColumn t c := by
  by_cases h10 : c = 0x0A
  · subst h10
    rw [terminalWritechar_newline]
    exact iff_of_true vgaWidth_pos fun h8 => absurd h8 (by decide)
  by_cases h8 : c = 0x08
  · subst h8
    rw [terminalWritechar_backspace]
    have hkeep : KeepsColumn t 0x08 ↔ t.terminalCol ≠ 0 ∨ t.terminalRow = 0 :=
      ⟨fun h => h rfl, fun h _ => h⟩
    rw [hkeep]
    by_cases hcol : t.terminalCol = 0
    · by_cases hrow : t.terminalRow = 0
      · rw [terminalBackspace, if_pos ⟨hrow, hcol⟩]
        exact iff_of_true h (.inr hrow)
      · rw [terminalBackspace_start hrow hcol]
        have hbelow : ¬(0 - 1 : UInt16) < vgaWidth := by decide
        exact iff_of_false hbelow (not_or.mpr ⟨not_not.mpr hcol, hrow⟩)
    · rw [terminalBackspace_within hcol h]
      refine iff_of_true ?_ (.inl hcol)
      have hlt := UInt16.lt_iff_toNat_lt.mp h
      show t.terminalCol - 1 < vgaWidth
      grind
  · rw [terminalWritechar_printable h10 h8]
    refine iff_of_true ?_ fun h => absurd h h8
    split_ifs with hwrap
    · exact vgaWidth_pos
    · exact UInt16.not_le.mp hwrap

/-- Before the last column a character can be taken back. -/
theorem undoable_of_lt (h : t.terminalCol + 1 < vgaWidth) (hcol : t.terminalCol < vgaWidth) :
    Undoable t := by
  intro c color color' h10 h8
  have hne : t.terminalCol + 1 ≠ 0 := by grind
  rw [terminalWritechar_backspace, terminalWritechar_printable h10 h8, if_neg (UInt16.not_le.mpr h),
    terminalBackspace_within hne h]
  have hback : t.terminalCol + 1 - 1 = t.terminalCol := UInt16.add_sub_cancel _ _
  simp only [hback]
  refine ⟨rfl, rfl, ?_⟩
  funext i
  simp only [terminalPutchar]
  split_ifs <;> rfl

/-- In the last column the cursor does not come back. -/
theorem not_undoable_of_last (h : t.terminalCol = 79) : ¬Undoable t := by
  intro hall
  have hundone := (hall 65 15 15 (by decide) (by decide)).col
  rw [terminalWritechar_backspace, terminalWritechar_printable (by decide) (by decide),
    if_pos (by rw [h]; decide), h] at hundone
  by_cases hrow : t.terminalRow + 1 = 0
  · rw [terminalBackspace, if_pos ⟨hrow, rfl⟩] at hundone
    exact absurd hundone (show (0 : UInt16) ≠ 79 by decide)
  · rw [terminalBackspace_start hrow rfl] at hundone
    exact absurd hundone (show (0 - 1 : UInt16) ≠ 79 by decide)

theorem undoable_iff (hcol : t.terminalCol < vgaWidth) : Undoable t ↔ t.terminalCol ≠ 79 := by
  constructor
  · exact fun h hlast => not_undoable_of_last hlast h
  · intro hne
    refine undoable_of_lt ?_ hcol
    grind

/-- The columns of a run are those of the screen and its end can be taken back from exactly if
no backspace came at the start of a row but the first and the cursor is not in the last column. -/
theorem terminal_run_undoable_iff (h : Trace TerminalStep (terminalInitialize (.boot m)) tr u) :
    ((∀ x ∈ tr, x.2.2.terminalCol < vgaWidth) ∧ Undoable u) ↔
      (∀ x ∈ tr, KeepsColumn x.1 x.2.1.1) ∧ u.terminalCol ≠ 79 := by
  have hstart : (terminalInitialize (.boot m)).terminalCol < vgaWidth := by
    rw [terminalInitialize_cursor.2]
    exact vgaWidth_pos
  have hstep : ∀ t x u, TerminalStep t x u → KeepsColumn t x.1 → t.terminalCol < vgaWidth →
      u.terminalCol < vgaWidth := by
    rintro t x u rfl hc ht
    exact (terminalWritechar_col_iff ht).mpr hc
  have hcols : (∀ x ∈ tr, x.2.2.terminalCol < vgaWidth) ↔ ∀ x ∈ tr, KeepsColumn x.1 x.2.1.1 := by
    refine h.forall_iff (P := fun _ _ u => u.terminalCol < vgaWidth) hstart hstep ?_
    rintro t x u rfl ht
    exact terminalWritechar_col_iff ht
  rw [hcols]
  exact and_congr_right fun hkeeps => undoable_iff (h.invariant hstart hstep hkeeps).2

theorem terminal_run_undoable_lines : ∃ u, Trace TerminalStep clearedScreen typedLines u ∧
    (∀ x ∈ typedLines, x.2.2.terminalCol < vgaWidth) ∧ Undoable u := by
  obtain ⟨u, htrace, hend, hat⟩ := typedLines_run
  refine ⟨u, htrace, (terminal_run_undoable_iff htrace).mpr ⟨fun x hx => ?_, ?_⟩⟩
  · obtain ⟨row, col, h, hmem⟩ := hat x hx
    rw [KeepsColumn, h.row, h.col]
    simp only [List.mem_cons, Prod.mk.injEq, List.not_mem_nil, or_false] at hmem
    rcases hmem with ⟨hc, rfl, rfl⟩ | ⟨hc, rfl, rfl⟩ | ⟨hc, rfl, rfl⟩ | ⟨hc, rfl, rfl⟩ |
      ⟨hc, rfl, rfl⟩
    all_goals
      rw [hc]
      decide
  · rw [hend.col]
    decide

/-- A newline and a backspace : the column is 65535. -/
theorem terminal_run_leaves_columns : ∃ tr u,
    Trace TerminalStep (terminalInitialize (.boot fun _ => 0)) tr u ∧
      ¬u.terminalCol < vgaWidth ∧ ¬∀ x ∈ tr, x.2.2.terminalCol < vgaWidth := by
  obtain ⟨hrow, -⟩ := terminalInitialize_cursor (t := .boot fun _ => 0)
  have hlast : ¬(terminalWritechar 0x08 15 (terminalWritechar 0x0A 15
      (terminalInitialize (.boot fun _ => 0)))).terminalCol < vgaWidth := by
    rw [terminalWritechar_newline, hrow, terminalWritechar_backspace,
      terminalBackspace_start (show (0 + 1 : UInt16) ≠ 0 by decide) rfl]
    exact show ¬(0 - 1 : UInt16) < vgaWidth by decide
  refine ⟨_, _, .cons (l := (0x0A, 15)) rfl (.cons (l := (0x08, 15)) rfl (.nil _)), hlast, ?_⟩
  exact fun hall => hlast (hall _ (List.mem_cons_of_mem _ List.mem_cons_self))

end Undo

end Hyperion
