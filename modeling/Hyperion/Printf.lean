import Hyperion.Itoa
import Hyperion.PathBuffers

/-!
# Formatted output

`printf` of the programs' library walks over its format with one pointer and takes a second step
behind each `%`. A format that ends in a `%` without a partner makes it step over the NUL, and
`print` hands over at most 1023 characters of a string. For the other formats and strings the
output is what the format says, and no byte behind the format is read (`printf_exact_iff`).

`Formats` is what a format says, piece by piece, as a relation : a character stands for itself and a
conversion for the numeral of an `int` or for a string, and arguments that are left over are
ignored. `Printer` has the output and where the format was read, so that a read behind the NUL is
seen. The loop is the source's, with the steps of its pointer (`printfLoop_char_emits` and
`printfLoop_conversion_emits` for one round), and `printfLoop_meets` goes over the pieces of the
format.

What a string turns into on the way to the screen is the kernel's part, the buffer of
`isr80h_command1_print` (`LoadStartCall.print_run`). Behind a `%` at the end the loop goes on with
whatever is in memory there (`printf_overreads`).
-/

namespace Hyperion

open Partial CString Numeral

/-- An argument behind the format. -/
inductive VaArg
  | int (i : Int)
  /-- The bytes from the pointer on, which `itoa` does not store to. -/
  | str (m : ℕ → UInt8)

/-- A program in a call of `printf`. -/
structure Printer where
  /-- The arguments that have not been taken. -/
  ap : List VaArg
  text : ItoaText
  /-- The characters that go to the screen. -/
  output : List UInt8
  /-- History : the indices of the format that were read. No function reads it. -/
  reads : List ℕ

abbrev PrinterM := Prog Printer

/-- Before the call. -/
def Printer.start (text : Int → UInt8) (ap : List VaArg) : Printer := ⟨ap, .start text, [], []⟩

/-! ## `stdio.c` -/

def putchar (c : UInt8) : PrinterM Unit := modify fun s => { s with output := s.output ++ [c] }

/-- The string goes through the 1024 bytes of `isr80h_command1_print`. -/
def printString (m : ℕ → UInt8) (a : ℕ) : PrinterM Unit :=
  modify fun s => { s with output := s.output ++ stringAt m 1023 a }

/-- `*p`, with `p` counted from the format on. -/
def readFormat (fmt : ℕ → UInt8) (p : ℕ) : PrinterM UInt8 := do
  modify fun s => { s with reads := s.reads ++ [p] }
  return fmt p

/-- `va_arg(ap, int)`. -/
def vaInt : PrinterM Int := fun s =>
  match s.ap with
  | .int i :: ap => some (i, { s with ap := ap })
  | _ => none

/-- `va_arg(ap, char *)`. -/
def vaString : PrinterM (ℕ → UInt8) := fun s =>
  match s.ap with
  | .str m :: ap => some (m, { s with ap := ap })
  | _ => none

/-- `itoa(ival)`, as an index of its buffer. -/
def printerItoa (ival : Int) : PrinterM Int := fun s =>
  (itoa ival s.text).map fun (loc, text) => (loc, { s with text := text })

/-- The cases of `switch (*++p)`. -/
def printfConversion (c : UInt8) : PrinterM Unit :=
  if c = 105 then do
    let ival ← vaInt
    let loc ← printerItoa ival
    let s ← get
    printString (fun x => s.text.text (loc + x)) 0
  else if c = 115 then do
    let sval ← vaString
    printString sval 0
  else putchar c

/-- The loop of `printf` from `p` on, `fuel` rounds. -/
def printfLoop (fmt : ℕ → UInt8) : (fuel p : ℕ) → PrinterM Unit
  | 0, _ => fault
  | fuel + 1, p => do
    let c ← readFormat fmt p
    if c = 0 then return
    if c ≠ 37 then
      putchar c
      printfLoop fmt fuel (p + 1)
    else
      let c ← readFormat fmt (p + 1)
      printfConversion c
      printfLoop fmt fuel (p + 2)

def printf (fmt : ℕ → UInt8) (fuel : ℕ) : PrinterM Int := do
  printfLoop fmt fuel 0
  return 0

/-! ## What `print` hands over -/

/-- `isr80h_command1_print` up to its `print` : the characters in `buf`, if something was copied. -/
def isr80hCommand1Print (buf : LocalArray) : KernelM (Option (List UInt8)) := do
  let k ← get
  let userSpaceMsgBuffer ← taskGetStackItem k.currentTask 0
  let (res, tmp) ← copyStringFromTask k.currentTask userSpaceMsgBuffer 1024
  if res < 0 then return none
  return some (stringAt (buf.strncpy 0 tmp 1024).byte 1024 0)

/-- With a block for the copy the kernel prints what `printString` appends. -/
theorem LoadStartCall.print_run {k : Kernel} {t : Task} {d virt a : ℕ} {f e : ℕ → ℕ}
    {s : List UInt8} {m : ℕ → UInt8} (h : LoadStartCall k t d f e virt s) (hm : StringIn m a s)
    (hfree : k.freeBlocks ≠ 0) (buf : LocalArray) :
    ∃ k', isr80hCommand1Print buf k = some (some (stringAt m 1023 a), k') := by
  obtain ⟨k₂, hitem, ⟨hfull, -⟩ | ⟨-, k', hcopy⟩⟩ :=
    h.copy (n := 1024) (by decide) (by decide)
  · exact absurd hfull hfree
  · refine ⟨k', ?_⟩
    have hbuf : stringAt (buf.strncpy 0 (s.take 1023) 1024).byte 1024 0 = s.take 1023 := by
      have hprint := LocalArray.stringAt_strcpy (n := 1024) h.ne_zero_of_mem buf
      rwa [← LocalArray.strncpy_take] at hprint
    rw [Nat.cast_ofNat] at hcopy
    rw [stringAt_eq_take hm]
    simp only [isr80hCommand1Print, run_bind, run_get, Option.bind_some, hitem, hcopy,
      if_neg (lt_irrefl (0 : Int)), run_pure, hbuf]

/-! ## Formats -/

/-- What a `%` with `c` behind it makes of the arguments `args` : the piece `w`, and the arguments
`rest`. -/
inductive Converts : (c : UInt8) → (args rest : List VaArg) → (w : List UInt8) → Prop
  | int {i : Int} {rest} : -2147483648 ≤ i → i < 2147483648 →
    Converts 105 (.int i :: rest) rest (numeral i)
  | str {m : ℕ → UInt8} {w rest} : StringIn m 0 w → Converts 115 (.str m :: rest) rest w
  | other {c : UInt8} {rest} : c ≠ 105 → c ≠ 115 → Converts c rest rest [c]

/-- What a format makes of the arguments, piece by piece. Arguments that it does not take are
ignored. -/
inductive Formats : (format : List UInt8) → List VaArg → (pieces : List (List UInt8)) → Prop
  | done (args : List VaArg) : Formats [] args []
  | char {c : UInt8} {s args ps} : c ≠ 37 → Formats s args ps → Formats (c :: s) args ([c] :: ps)
  | conversion {c : UInt8} {s args rest w ps} : Converts c args rest w → Formats s rest ps →
    Formats (37 :: c :: s) args (w :: ps)
  /-- There is no character behind the `%`. -/
  | percent (args : List VaArg) : Formats [37] args []

/-- The last `%` of the format has no partner. -/
def EndsInPercent : (format : List UInt8) → Prop
  | [] => False
  | [c] => c = 37
  | c :: d :: s => if c = 37 then EndsInPercent s else EndsInPercent (d :: s)

/-! ## The loop -/

/-- A piece has been written. -/
structure Emitted (t : Printer) (args : List VaArg) (piece : List UInt8) (t' : Printer) :
    Prop where
  ap : t'.ap = args
  output : t'.output = t.output ++ piece.take 1023
  reads : t'.reads = t.reads
  stores : ∀ x ∈ t'.text.stores, 0 ≤ x ∧ x ≤ 11

section Loop

variable {r : Prop} {fmt m : ℕ → UInt8} {fuel p : ℕ} {i : Int} {c : UInt8} {t t' : Printer}
  {s w : List UInt8} {args : List VaArg} {ps : List (List UInt8)}

theorem putchar_emits (hap : t.ap = args) (ht : ∀ x ∈ t.text.stores, 0 ≤ x ∧ x ≤ 11) :
    Meets r (putchar c) t fun _ => Emitted t args [c] :=
  Meets.modify_iff.mpr ⟨hap, rfl, rfl, ht⟩

theorem printString_emits (hap : t.ap = args) (ht : ∀ x ∈ t.text.stores, 0 ≤ x ∧ x ≤ 11)
    (hw : StringIn m 0 w) : Meets r (printString m 0) t fun _ => Emitted t args w :=
  Meets.modify_iff.mpr ⟨hap, by rw [stringAt_eq_take hw], rfl, ht⟩

theorem printfConversion_int (hap : t.ap = .int i :: args)
    (ht : ∀ x ∈ t.text.stores, 0 ≤ x ∧ x ≤ 11) (hlo : -2147483648 ≤ i) (hhi : i < 2147483648) :
    Meets r (printfConversion 105) t fun _ => Emitted t args (numeral i) := by
  obtain ⟨loc, text, hrun, hw⟩ := (itoa_meets hlo hhi ht).exists_result
  have hitoa : printerItoa i { t with ap := args } =
      some (loc, { t with ap := args, text := text }) := by
    rw [printerItoa, show ({ t with ap := args } : Printer).text = t.text from rfl, hrun]
    rfl
  have harg : vaInt t = some (i, { t with ap := args }) := by rw [vaInt, hap]
  rw [printfConversion, if_pos rfl]
  refine Meets.bind_iff.mpr (.of_run_eq harg (Meets.bind_iff.mpr (.of_run_eq hitoa ?_)))
  refine Meets.bind_iff.mpr (Meets.get_iff.mpr ?_)
  refine (printString_emits rfl hw.stores hw.string).mono fun _ t' h => ?_
  exact ⟨h.ap, h.output, h.reads, h.stores⟩

theorem printfConversion_str (hap : t.ap = .str m :: args)
    (ht : ∀ x ∈ t.text.stores, 0 ≤ x ∧ x ≤ 11) (hw : StringIn m 0 w) :
    Meets r (printfConversion 115) t fun _ => Emitted t args w := by
  have harg : vaString t = some (m, { t with ap := args }) := by rw [vaString, hap]
  rw [printfConversion, if_neg (by decide), if_pos rfl]
  refine Meets.bind_iff.mpr (.of_run_eq harg ((printString_emits rfl ?_ hw).mono ?_))
  · exact ht
  · exact fun _ t' h => ⟨h.ap, h.output, h.reads, h.stores⟩

theorem Converts.emits {rest : List VaArg} (h : Converts c args rest w) (hap : t.ap = args)
    (ht : ∀ x ∈ t.text.stores, 0 ≤ x ∧ x ≤ 11) :
    Meets r (printfConversion c) t fun _ => Emitted t rest w := by
  cases h with
  | int hlo hhi => exact printfConversion_int hap ht hlo hhi
  | str hw => exact printfConversion_str hap ht hw
  | other hi hs =>
    rw [printfConversion, if_neg hi, if_neg hs]
    exact putchar_emits hap ht

/-! ### Rounds -/

variable {Q : Unit → Printer → Prop}

theorem readFormat_meets {Q : UInt8 → Printer → Prop}
    (h : Q (fmt p) { t with reads := t.reads ++ [p] }) : Meets r (readFormat fmt p) t Q :=
  Meets.bind_iff.mpr (Meets.modify_iff.mpr (Meets.pure_iff.mpr h))

theorem printfLoop_nul (h : fmt p = 0) (hQ : Q () { t with reads := t.reads ++ [p] }) :
    Meets r (printfLoop fmt (fuel + 1) p) t Q := by
  rw [printfLoop]
  refine Meets.bind_iff.mpr (readFormat_meets ?_)
  rw [if_pos h]
  exact Meets.pure_iff.mpr hQ

theorem printfLoop_char (h : fmt p ≠ 0) (hc : fmt p ≠ 37)
    (hm : Meets r (putchar (fmt p)) { t with reads := t.reads ++ [p] } fun _ t' =>
      Meets r (printfLoop fmt fuel (p + 1)) t' Q) :
    Meets r (printfLoop fmt (fuel + 1) p) t Q := by
  rw [printfLoop]
  refine Meets.bind_iff.mpr (readFormat_meets ?_)
  rw [if_neg h, if_pos hc]
  exact Meets.bind_iff.mpr hm

theorem printfLoop_percent (h : fmt p = 37)
    (hm : Meets r (printfConversion (fmt (p + 1))) { t with reads := t.reads ++ [p, p + 1] }
      fun _ t' => Meets r (printfLoop fmt fuel (p + 2)) t' Q) :
    Meets r (printfLoop fmt (fuel + 1) p) t Q := by
  rw [printfLoop]
  refine Meets.bind_iff.mpr (readFormat_meets ?_)
  rw [h, if_neg (by decide), if_neg (not_not.mpr rfl)]
  refine Meets.bind_iff.mpr (readFormat_meets (Meets.bind_iff.mpr ?_))
  rwa [List.append_assoc]

/-- The round of a character that is no `%`. -/
theorem printfLoop_char_emits (hfmt : StringIn fmt p (c :: s)) (hc : c ≠ 37) (hap : t.ap = args)
    (ht : ∀ x ∈ t.text.stores, 0 ≤ x ∧ x ≤ 11)
    (hrest : ∀ t', Emitted { t with reads := t.reads ++ [p] } args [c] t' →
      Meets r (printfLoop fmt fuel (p + 1)) t' Q) :
    Meets r (printfLoop fmt (fuel + 1) p) t Q := by
  have hhead := hfmt.head
  refine printfLoop_char (by rw [hhead]; exact hfmt.head_ne) (by rwa [hhead]) ?_
  rw [hhead]
  exact (putchar_emits (t := { t with reads := t.reads ++ [p] }) hap ht).mono fun _ => hrest

/-- The round of a `%` with a partner. -/
theorem printfLoop_conversion_emits {rest : List VaArg} (hfmt : StringIn fmt p (37 :: c :: s))
    (hconv : Converts c args rest w) (hap : t.ap = args)
    (ht : ∀ x ∈ t.text.stores, 0 ≤ x ∧ x ≤ 11)
    (hrest : ∀ t', Emitted { t with reads := t.reads ++ [p, p + 1] } rest w t' →
      Meets r (printfLoop fmt fuel (p + 2)) t' Q) :
    Meets r (printfLoop fmt (fuel + 1) p) t Q := by
  refine printfLoop_percent hfmt.head ?_
  rw [hfmt.tail.head]
  exact (hconv.emits (t := { t with reads := t.reads ++ [p, p + 1] }) hap ht).mono fun _ => hrest

/-! ### Runs -/

/-- A conversion changes what has been read only by what the caller reads. -/
theorem printfConversion_unchanged : Unchanged Printer.reads (printfConversion c) := by
  have hprint : ∀ m a, Unchanged Printer.reads (printString m a) := fun _ _ => .modify fun _ => rfl
  refine .ite (.bind ?_ fun i => .bind ?_ fun loc => .bind ?_ fun s => hprint _ _)
    (.ite (.bind ?_ fun m => hprint _ _) (.modify fun _ => rfl))
  · rintro ⟨_ | ⟨i | m, ap⟩, text, output, reads⟩ _ _ h <;> cases h
    rfl
  · rintro s _ _ h
    obtain ⟨⟨loc, text⟩, -, h⟩ := Option.map_eq_some_iff.mp h
    cases h
    rfl
  · rintro s _ _ h
    cases h
    rfl
  · rintro ⟨_ | ⟨i | m, ap⟩, text, output, reads⟩ _ _ h <;> cases h
    rfl

/-- What was read has been read, and a round begins with `*p`. -/
theorem printfLoop_reads {x : ℕ} : ∀ {fuel p : ℕ} {t : Printer}, x ∈ t.reads ++ [p] →
    Meets False (printfLoop fmt fuel p) t fun _ t' => x ∈ t'.reads
  | 0, _, _, _ => Meets.fault_iff.mpr not_false
  | fuel + 1, p, t, hx => by
    by_cases h0 : fmt p = 0
    · exact printfLoop_nul h0 hx
    by_cases hc : fmt p = 37
    · refine printfLoop_percent hc (Meets.self.mono fun _ t' hrun => printfLoop_reads ?_)
      rw [printfConversion_unchanged _ _ _ hrun]
      rcases List.mem_append.mp hx with hx | hx
      · exact List.mem_append_left _ (List.mem_append_left _ hx)
      · rw [List.mem_singleton.mp hx]
        simp
    · exact printfLoop_char h0 hc
        (Meets.modify_iff.mpr (printfLoop_reads (List.mem_append_left _ hx)))

/-- What the loop leaves that has come to the end of a format of `n` characters from `p` on. -/
structure Printed (t : Printer) (p n : ℕ) (ps : List (List UInt8)) (t' : Printer) : Prop where
  output : t'.output = t.output ++ (ps.map (List.take 1023)).flatten
  reads : ∀ x ∈ t'.reads, x ∈ t.reads ∨ x ≤ p + n

/-- One piece, for which `l` was read, and the rest of the format behind `k` characters. -/
theorem Printed.cons {t'' : Printer} {l : List ℕ} {k n : ℕ} (h : Printed t' (p + k) n ps t'')
    (he : Emitted { t with reads := t.reads ++ l } args w t') (hl : ∀ x ∈ l, x ≤ p + k) :
    Printed t p (n + k) (w :: ps) t'' where
  output := by rw [h.output, he.output, List.map_cons, List.flatten_cons, List.append_assoc]
  reads x hx := by
    rcases h.reads x hx with hx | hle
    · rw [he.reads] at hx
      rcases List.mem_append.mp hx with hx | hx
      · exact .inl hx
      · have := hl x hx
        exact .inr (by omega)
    · exact .inr (by omega)

theorem endsInPercent_cons (hc : c ≠ 37) : EndsInPercent (c :: s) ↔ EndsInPercent s := by
  cases s with
  | nil => exact iff_of_false hc not_false
  | cons d s => rw [EndsInPercent, if_neg hc]

theorem endsInPercent_pair : EndsInPercent (37 :: c :: s) ↔ EndsInPercent s := by
  rw [EndsInPercent, if_pos rfl]

/-- The loop from `p` on, where the rest of the format begins. -/
theorem printfLoop_meets (h : Formats s args ps) : ∀ {fuel p : ℕ} {t : Printer},
    (r → s.length < fuel) → ¬EndsInPercent s → StringIn fmt p s → t.ap = args →
    (∀ x ∈ t.text.stores, 0 ≤ x ∧ x ≤ 11) →
    Meets r (printfLoop fmt fuel p) t fun _ => Printed t p s.length ps := by
  induction h with
  | done args =>
    rintro (_ | fuel) p t hfuel - hfmt hap ht
    · exact Meets.fault_iff.mpr fun hr => absurd (hfuel hr) (Nat.not_lt_zero _)
    refine printfLoop_nul hfmt.nul ⟨(List.append_nil _).symm, fun x hx => ?_⟩
    rcases List.mem_append.mp hx with hx | hx
    · exact .inl hx
    · exact .inr (List.mem_singleton.mp hx).le
  | @char c s args ps hc h ih =>
    rintro (_ | fuel) p t hfuel hends hfmt hap ht
    · exact Meets.fault_iff.mpr fun hr => absurd (hfuel hr) (Nat.not_lt_zero _)
    rw [endsInPercent_cons hc] at hends
    refine printfLoop_char_emits hfmt hc hap ht fun t' he => ?_
    refine (ih (fun hr => ?_) hends hfmt.tail he.ap he.stores).mono fun _ t'' h' => ?_
    · exact Nat.succ_lt_succ_iff.mp (hfuel hr)
    · exact h'.cons he fun x hx => (List.mem_singleton.mp hx).trans_le (Nat.le_succ p)
  | @conversion c s args rest w ps hconv h ih =>
    rintro (_ | fuel) p t hfuel hends hfmt hap ht
    · exact Meets.fault_iff.mpr fun hr => absurd (hfuel hr) (Nat.not_lt_zero _)
    rw [endsInPercent_pair] at hends
    refine printfLoop_conversion_emits hfmt hconv hap ht fun t' he => ?_
    refine (ih (fun hr => ?_) hends hfmt.tail.tail he.ap he.stores).mono fun _ t'' h' => ?_
    · have := hfuel hr
      rw [List.length_cons, List.length_cons] at this
      omega
    · refine h'.cons (k := 2) he fun x hx => ?_
      rcases List.mem_pair.mp hx with rfl | rfl <;> omega
  | percent args => exact fun _ hends => absurd rfl hends

/-- Behind a format that ends in a `%` without a partner the loop goes on. -/
theorem printfLoop_overreads (h : Formats s args ps) : ∀ {fuel p : ℕ} {t : Printer},
    EndsInPercent s → StringIn fmt p s → t.ap = args →
    (∀ x ∈ t.text.stores, 0 ≤ x ∧ x ≤ 11) →
    Meets False (printfLoop fmt fuel p) t fun _ t' => p + s.length + 1 ∈ t'.reads := by
  induction h with
  | done args => exact fun hends => absurd hends not_false
  | @char c s args ps hc h ih =>
    rintro (_ | fuel) p t hends hfmt hap ht
    · exact Meets.fault_iff.mpr not_false
    rw [endsInPercent_cons hc] at hends
    refine printfLoop_char_emits hfmt hc hap ht fun t' he => ?_
    have hlen : p + (c :: s).length + 1 = p + 1 + s.length + 1 := by
      rw [List.length_cons]
      omega
    rw [hlen]
    exact ih hends hfmt.tail he.ap he.stores
  | @conversion c s args rest w ps hconv h ih =>
    rintro (_ | fuel) p t hends hfmt hap ht
    · exact Meets.fault_iff.mpr not_false
    rw [endsInPercent_pair] at hends
    refine printfLoop_conversion_emits hfmt hconv hap ht fun t' he => ?_
    have hlen : p + (37 :: c :: s).length + 1 = p + 2 + s.length + 1 := by
      rw [List.length_cons, List.length_cons]
      omega
    rw [hlen]
    exact ih hends hfmt.tail.tail he.ap he.stores
  | percent args =>
    rintro (_ | fuel) p t - hfmt hap ht
    · exact Meets.fault_iff.mpr not_false
    refine printfLoop_percent hfmt.head (Meets.self.mono fun _ t' _ => ?_)
    -- whatever is behind the NUL, the next round reads it
    exact printfLoop_reads (List.mem_append_right _ (List.mem_singleton.mpr rfl))

end Loop

/-! ## The output -/

/-- `printf` reads nothing behind the format `s`, ends, and writes the pieces. -/
def PrintfExact (fmt : ℕ → UInt8) (s : List UInt8) (text : Int → UInt8) (args : List VaArg)
    (ps : List (List UInt8)) : Prop :=
  ∃ fuel t, printf fmt fuel (Printer.start text args) = some (0, t) ∧
    (∀ x ∈ t.reads, x ≤ s.length) ∧ t.output = ps.flatten

theorem length_flatten_take_le {n : ℕ} : ∀ ps : List (List UInt8),
    (ps.map (List.take n)).flatten.length ≤ ps.flatten.length
  | [] => le_rfl
  | w :: ps => by
    rw [List.map_cons, List.flatten_cons, List.flatten_cons, List.length_append, List.length_append]
    exact Nat.add_le_add (List.length_take_le' n w) (length_flatten_take_le ps)

/-- Nothing is missing exactly if no piece was cut. -/
theorem flatten_take_eq_iff {n : ℕ} : ∀ {ps : List (List UInt8)},
    (ps.map (List.take n)).flatten = ps.flatten ↔ ∀ w ∈ ps, w.length ≤ n
  | [] => by simp
  | w :: ps => by
    rw [List.map_cons, List.flatten_cons, List.flatten_cons, List.forall_mem_cons,
      ← flatten_take_eq_iff]
    constructor
    · intro h
      have hlen := congrArg List.length h
      have hle := length_flatten_take_le (n := n) ps
      rw [List.length_append, List.length_append, List.length_take] at hlen
      have hw : w.length ≤ n := by omega
      rw [List.take_of_length_le hw] at h
      exact ⟨hw, List.append_cancel_left h⟩
    · rintro ⟨hw, h⟩
      rw [List.take_of_length_le hw, h]

/-- The output is what the format says exactly if the format does not end in a `%` without a
partner, and no piece is longer than 1023 characters. -/
theorem printf_exact_iff {fmt : ℕ → UInt8} {s : List UInt8} {args : List VaArg}
    {ps : List (List UInt8)} (hfmt : StringIn fmt 0 s) (h : Formats s args ps)
    (text : Int → UInt8) :
    PrintfExact fmt s text args ps ↔ ¬EndsInPercent s ∧ ∀ w ∈ ps, w.length ≤ 1023 := by
  have hstores : ∀ x ∈ (Printer.start text args).text.stores, 0 ≤ x ∧ x ≤ 11 :=
    fun _ hx => absurd hx List.not_mem_nil
  rw [← flatten_take_eq_iff]
  constructor
  · rintro ⟨fuel, t, hrun, hreads, houtput⟩
    obtain ⟨_, t', hloop, hret⟩ := bind_eq_some.mp hrun
    cases hret
    have hends : ¬EndsInPercent s := fun hends => by
      have hover := (printfLoop_overreads h hends hfmt rfl hstores).of_eq hloop
      have := hreads _ hover
      omega
    have hprinted := (printfLoop_meets (r := False) h False.elim hends hfmt rfl hstores).of_eq hloop
    exact ⟨hends, hprinted.output.symm.trans houtput⟩
  · rintro ⟨hends, hcut⟩
    have hfuel : True → s.length < s.length + 1 := fun _ => Nat.lt_succ_self _
    obtain ⟨_, t, hloop, hprinted⟩ :=
      (printfLoop_meets h hfuel hends hfmt rfl hstores).exists_result
    refine ⟨s.length + 1, t, bind_eq_some.mpr ⟨_, t, hloop, rfl⟩, fun x hx => ?_,
      hprinted.output.trans hcut⟩
    rcases hprinted.reads x hx with hx | hle
    · exact absurd hx List.not_mem_nil
    · omega

/-- `a%i`. -/
theorem printf_exact_number : PrintfExact (fun p => [97, 37, 105].getD p 0) [97, 37, 105]
    (fun _ => 0) [.int (-7)] [[97], numeral (-7)] := by
  refine (printf_exact_iff ⟨by simp, fun i _ => by simp⟩ ?_ _).mpr ⟨by simp [EndsInPercent], ?_⟩
  · exact .char (by decide) (.conversion (.int (by decide) (by decide)) (.done []))
  · decide

/-- With `5%` and the string `A` behind it in memory, the NUL and the `A` are written as well. -/
theorem printf_overreads : Formats [53, 37] [] [[53]] ∧
    (∃ t, printf (fun p => [53, 37, 0, 65].getD p 0) 4 (Printer.start (fun _ => 0) []) =
      some (0, t) ∧ t.output = [53, 0, 65] ∧ t.reads = [0, 1, 2, 3, 4]) ∧
    ¬PrintfExact (fun p => [53, 37, 0, 65].getD p 0) [53, 37] (fun _ => 0) [] [[53]] := by
  have hformat : Formats [53, 37] [] [[53]] := .char (by decide) (.percent [])
  refine ⟨hformat, ⟨_, rfl, rfl, rfl⟩, ?_⟩
  rintro ⟨fuel, t, hrun, hreads, -⟩
  obtain ⟨_, t', hloop, hret⟩ := bind_eq_some.mp hrun
  cases hret
  have hfmt : StringIn (fun p => [53, 37, 0, 65].getD p 0) 0 [53, 37] := by
    refine ⟨by simp, fun i hi => ?_⟩
    have hi' : i ≤ 2 := hi
    interval_cases i <;> rfl
  have hover := (printfLoop_overreads hformat (by simp [EndsInPercent]) hfmt rfl
    fun _ hx => absurd hx List.not_mem_nil).of_eq hloop
  exact absurd (hreads _ hover) (by decide)

end Hyperion
