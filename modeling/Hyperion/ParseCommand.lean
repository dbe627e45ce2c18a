import Hyperion.Lib.Trace
import Hyperion.Strtok

/-!
# `hardikhyperionos_parse_command`

The command is copied to the stack and cut up by `strtok`, whose global `sp` is all that one
call leaves to the next. A call that runs out of memory leaves it in the middle of its own
copy of the command, and the next call goes on from there (`parseCommand_answered`).

A call is given with what it finds (`ParseCall`) : the memory of the program, where its array is,
and what `malloc` is going to answer. The tokens that it should return are those of the command as
it was given (`ParseCall.tokens`), and `Answered` says which list of arguments is right for them,
the null pointer standing for no argument. A call with a bound larger than the array is turned
away (`ParseCall.Accepted`).

`Pending` relates `sp` to the tokens that are to come, and `parseCommandLoop_run` goes over them
until the memory ends. A call that starts with `sp` null is right exactly if it is accepted, and
leaves `sp` null unless it runs out of memory (`run_fresh`). So in a run it is the first call which
does not finish that spoils the next one (`parseCommand_leaks`).
-/

namespace Hyperion

open Partial CString Tokens

/-- A `struct command_argument`, with its address. -/
structure CommandArgument where
  address : ℕ
  argument : List UInt8
deriving DecidableEq

namespace ProgramState

/-- Bytes stored from `a` on. -/
def store (s : ProgramState) (a : ℕ) (bs : List UInt8) : ProgramState :=
  { s with mem := fun x => if a ≤ x ∧ x < a + bs.length then bs.getD (x - a) 0 else s.mem x }

/-- The bytes `strncpy` takes from `src`, at most `fuel`, up to the NUL. -/
def stringFrom (s : ProgramState) : (fuel src : ℕ) → List UInt8
  | 0, _ => []
  | fuel + 1, src => if s.mem src = 0 then [] else s.mem src :: s.stringFrom fuel (src + 1)

end ProgramState

/-- The loop of `hardikhyperionos_parse_command`. `malloc i` is the address the call's
allocation number `i` returns. The structures come from `malloc`, so the memory of the
strings is apart from them. -/
def parseCommandLoop (malloc : ℕ → ℕ) : (fuel i token : ℕ) → ProgramM (List CommandArgument)
  | 0, _, _ => fault
  | fuel + 1, i, token => do
    if token = 0 then return []
    let newCommand := malloc i
    if newCommand = 0 then return []
    let s ← get
    let argument := s.stringFrom (512 - 1) token
    let token ← strtok 0 [32]
    let next ← parseCommandLoop malloc fuel (i + 1) token
    return ⟨newCommand, argument⟩ :: next

/-- `hardikhyperionos_parse_command` with its array at `scommand`. The list of arguments,
`[]` for the null pointer. -/
def hardikhyperionosParseCommand (scommand : ℕ) (malloc : ℕ → ℕ) (command : List UInt8)
    (max : Int) : ProgramM (List CommandArgument) := do
  if max ≥ 1025 then return []
  modify fun s => s.store scommand (command.take (1025 - 1) ++ [0])
  let token ← strtok scommand [32]
  if token = 0 then return []
  let rootCommand := malloc 0
  if rootCommand = 0 then return []
  let s ← get
  let argument := s.stringFrom (512 - 1) token
  let token ← strtok 0 [32]
  let next ← parseCommandLoop malloc 4294967296 1 token
  return ⟨rootCommand, argument⟩ :: next

/-- A call : the stack it finds, where its array is on it, what `malloc` will return, and
the arguments. -/
structure ParseCall where
  stack : ℕ → UInt8
  scommand : ℕ
  scommand_ne : scommand ≠ 0
  scommand_fits : scommand + 1025 ≤ 4294967296
  malloc : ℕ → ℕ
  command : List UInt8
  command_ne_zero : ∀ c ∈ command, c ≠ 0
  command_lt : command.length < 1024
  max : Int

namespace ParseCall

variable (c : ParseCall)

def run (sp : ℕ) : Option (List CommandArgument × ProgramState) :=
  hardikhyperionosParseCommand c.scommand c.malloc c.command c.max ⟨c.stack, sp⟩

/-- The tokens of the command. -/
def tokens : List (List UInt8) := Tokens.tokens (isDelimiter [32]) c.command

/-- The list `r` is what the call should return. -/
structure Answered (r : List CommandArgument) : Prop where
  first : ∃ n, r.map (·.argument) = (c.tokens.take n).map (List.take 511)
  all : (∀ i < c.tokens.length, c.malloc i ≠ 0) →
    r.map (·.argument) = c.tokens.map (List.take 511)
  null : r = [] → c.tokens = [] ∨ c.malloc 0 = 0

/-- The call is not turned away at once although its command has a token. -/
def Accepted : Prop := c.max < 1025 ∨ c.tokens = [] ∨ c.malloc 0 = 0

/-- The call does not run out of memory. -/
def Finishes : Prop := 1025 ≤ c.max ∨ ∀ i < c.tokens.length, c.malloc i ≠ 0

end ParseCall

/-- One call. What stays is `sp`. -/
def ParseStep (sp : ℕ) (x : ParseCall × List CommandArgument) (sp' : ℕ) : Prop :=
  ∃ m, x.1.run sp = some (x.2, ⟨m, sp'⟩)

variable {m : ℕ → UInt8} {a bound token i : ℕ} {s : List UInt8} {ts : List (List UInt8)}
  {malloc : ℕ → ℕ} {t : ProgramState}

/-! ## The loop -/

theorem ProgramState.stringFrom_eq : ∀ (s : List UInt8) (n a : ℕ), StringIn t.mem a s →
    t.stringFrom n a = s.take n
  | s, 0, a, _ => by simp [stringFrom]
  | [], n + 1, a, h => by simp [stringFrom, h.nul]
  | x :: s, n + 1, a, h => by
    rw [stringFrom, h.head, if_neg h.head_ne, stringFrom_eq s n (a + 1) h.tail, List.take_succ_cons]

/-- `strtok` has returned `token`, and with it `ts` are the tokens to come. -/
inductive Pending (bound : ℕ) : (ts : List (List UInt8)) → (token : ℕ) → ProgramState → Prop
  | none {t : ProgramState} : t.sp = 0 → Pending bound [] 0 t
  | some {w : List UInt8} {ts : List (List UInt8)} {token : ℕ} {t : ProgramState}
      {rest : List UInt8} : TokenCut [32] bound token w ts t rest → Pending bound (w :: ts) token t

theorem strtok_pending (str : ℕ) (t : ProgramState) (hstart : strtokStart str t.sp ≠ 0)
    (h : StringIn t.mem (strtokStart str t.sp) s)
    (hfits : strtokStart str t.sp + s.length ≤ bound) (hbound : bound < 4294967296) :
    ∃ token t', strtok str [32] t = some (token, t') ∧
      Pending bound (tokens (isDelimiter [32]) s) token t' := by
  cases hts : tokens (isDelimiter [32]) s with
  | nil => exact ⟨0, ⟨t.mem, 0⟩, strtok_none (by simp) hstart h (by omega) hts, .none rfl⟩
  | cons w ts =>
    obtain ⟨p, t', rest, hrun, hcut⟩ := strtok_some (by simp) hstart h (by omega) hts
    exact ⟨p, t', hrun, .some { hcut with fits := hcut.fits.trans hfits }⟩

/-- The next token of a string that has been begun. -/
theorem TokenCut.next {w rest : List UInt8} (h : TokenCut [32] bound token w ts t rest)
    (hbound : bound < 4294967296) :
    ∃ token' t', strtok 0 [32] t = some (token', t') ∧ Pending bound ts token' t' := by
  have hstart : strtokStart 0 t.sp = t.sp := by simp [strtokStart, h.rest_ne]
  rw [← h.tokens]
  exact strtok_pending 0 t (by rw [hstart]; exact h.rest_ne) (by rw [hstart]; exact h.rest)
    (by rw [hstart]; exact h.fits) hbound

/-- The tokens an allocation is granted for, from number `i` on. -/
def granted (malloc : ℕ → ℕ) : (i : ℕ) → List (List UInt8) → List (List UInt8)
  | _, [] => []
  | i, w :: ts => if malloc i = 0 then [] else w :: granted malloc (i + 1) ts

theorem granted_take (malloc : ℕ → ℕ) : ∀ (i : ℕ) (ts : List (List UInt8)),
    ∃ n, granted malloc i ts = ts.take n
  | _, [] => ⟨0, rfl⟩
  | i, w :: ts => by
    obtain ⟨n, hn⟩ := granted_take malloc (i + 1) ts
    by_cases hi : malloc i = 0
    · exact ⟨0, by simp [granted, hi]⟩
    · exact ⟨n + 1, by simp [granted, hi, hn]⟩

theorem granted_all : ∀ (i : ℕ) (ts : List (List UInt8)),
    (∀ j < ts.length, malloc (i + j) ≠ 0) → granted malloc i ts = ts
  | _, [], _ => rfl
  | i, w :: ts, h => by
    have hi : malloc i ≠ 0 := h 0 (by simp)
    rw [granted, if_neg hi, granted_all (i + 1) ts fun j hj => ?_]
    rw [show i + 1 + j = i + (j + 1) by omega]
    exact h (j + 1) (by simpa using hj)

/-- What the loop returns, and that it leaves `sp` null if no allocation fails. -/
theorem parseCommandLoop_run (malloc : ℕ → ℕ) (hbound : bound < 4294967296) :
    ∀ (ts : List (List UInt8)) (fuel i token : ℕ) (t : ProgramState), Pending bound ts token t →
      ts.length < fuel → ∃ r u, parseCommandLoop malloc fuel i token t = some (r, u) ∧
        r.map (·.argument) = (granted malloc i ts).map (List.take 511) ∧
        ((∀ j < ts.length, malloc (i + j) ≠ 0) → u.sp = 0)
  | [], fuel + 1, i, _, t, .none hsp, _ =>
    ⟨[], t, by simp [parseCommandLoop, run_pure], rfl, fun _ => hsp⟩
  | w :: ts, fuel + 1, i, token, t, .some hcut, hlen => by
    by_cases hi : malloc i = 0
    · refine ⟨[], t, ?_, by simp [granted, hi], fun h => absurd hi (h 0 (by simp))⟩
      simp [parseCommandLoop, run_pure, hcut.token_ne, hi]
    · obtain ⟨token', t', hrun, hpending⟩ := hcut.next hbound
      obtain ⟨r, u, hloop, hr, hu⟩ := parseCommandLoop_run malloc hbound ts fuel (i + 1) token' t'
        hpending (by simpa using hlen)
      refine ⟨⟨malloc i, w.take 511⟩ :: r, u, ?_, by simp [granted, hi, hr], fun h => hu ?_⟩
      · simp only [parseCommandLoop, if_neg hcut.token_ne, if_neg hi, run_bind, run_get,
          Option.bind_some, hrun, hloop, run_pure]
        rw [ProgramState.stringFrom_eq w _ _ hcut.token]
      · intro j hj
        rw [show i + 1 + j = i + (j + 1) by omega]
        exact h (j + 1) (by simpa using hj)

/-! ## One call -/

/-- The first argument is made as the others are. -/
theorem hardikhyperionosParseCommand_eq {scommand : ℕ} {command : List UInt8} {max : Int}
    (hmax : ¬max ≥ 1025) :
    hardikhyperionosParseCommand scommand malloc command max = (do
      modify fun s => s.store scommand (command.take (1025 - 1) ++ [0])
      let token ← strtok scommand [32]
      parseCommandLoop malloc (4294967296 + 1) 0 token) := by
  rw [hardikhyperionosParseCommand, if_neg hmax]
  rfl

namespace ParseCall

variable {c : ParseCall} {r : List CommandArgument}

/-- A call that starts afresh makes an argument of each token until `malloc` fails. -/
theorem run_granted (c : ParseCall) (hmax : c.max < 1025) :
    ∃ r t, c.run 0 = some (r, t) ∧
      r.map (·.argument) = (granted c.malloc 0 c.tokens).map (List.take 511) ∧
      ((∀ i < c.tokens.length, c.malloc i ≠ 0) → t.sp = 0) := by
  have hlt := c.command_lt
  have hfits := c.scommand_fits
  have htake : c.command.take (1025 - 1) = c.command := List.take_of_length_le (by omega)
  set t : ProgramState := ProgramState.store ⟨c.stack, 0⟩ c.scommand (c.command ++ [0]) with ht
  have hstr : StringIn t.mem c.scommand c.command := .of_stored c.command_ne_zero fun i hi => by
    simp only [ht, ProgramState.store]
    rw [if_pos (by simp; omega), Nat.add_sub_cancel_left]
  have hstart : strtokStart c.scommand t.sp = c.scommand := rfl
  obtain ⟨token, t', htok, hpending⟩ := strtok_pending c.scommand t
    (by rw [hstart]; exact c.scommand_ne) hstr le_rfl (by omega)
  have hlen := length_tokens_le (p := isDelimiter [32]) c.command
  obtain ⟨r, u, hloop, hr, hu⟩ := parseCommandLoop_run c.malloc (by omega) _
    (4294967296 + 1) 0 token t' hpending (by omega)
  refine ⟨r, u, ?_, hr, fun h => hu fun j hj => by rw [Nat.zero_add]; exact h j hj⟩
  rw [run, hardikhyperionosParseCommand_eq (by omega), htake]
  simp only [run_bind, run_modify, Option.bind_some, ← ht, htok, hloop]

theorem answered_of_granted
    (h : r.map (·.argument) = (granted c.malloc 0 c.tokens).map (List.take 511)) :
    c.Answered r where
  first := by
    obtain ⟨n, hn⟩ := granted_take c.malloc 0 c.tokens
    exact ⟨n, by rw [h, hn]⟩
  all hall := by
    rw [h, granted_all 0 c.tokens fun j hj => by rw [Nat.zero_add]; exact hall j hj]
  null hr := by
    subst hr
    cases hts : c.tokens with
    | nil => exact .inl rfl
    | cons w ts =>
      refine .inr ?_
      by_contra hne
      simp [hts, granted, hne] at h

/-- The null pointer is the right answer exactly if there is no token or no memory. -/
theorem answered_nil_iff : c.Answered [] ↔ c.tokens = [] ∨ c.malloc 0 = 0 := by
  refine ⟨fun h => h.null rfl, fun h => ⟨⟨0, rfl⟩, fun hall => ?_, fun _ => h⟩⟩
  cases hts : c.tokens with
  | nil => rfl
  | cons w ts =>
    have hne : c.malloc 0 ≠ 0 := hall 0 (by simp [hts])
    simp [hts, hne] at h

/-- A call that starts afresh gives the right answer exactly if it is accepted, and the
next one starts afresh if this one finishes. -/
theorem run_fresh (c : ParseCall) :
    ∃ r t, c.run 0 = some (r, t) ∧ (c.Answered r ↔ c.Accepted) ∧ (c.Finishes → t.sp = 0) := by
  by_cases hmax : c.max < 1025
  · obtain ⟨r, t, hrun, hr, ht⟩ := c.run_granted hmax
    refine ⟨r, t, hrun, ⟨fun _ => .inl hmax, fun _ => answered_of_granted hr⟩, fun h => ht ?_⟩
    exact h.resolve_left (by omega)
  · refine ⟨[], ⟨c.stack, 0⟩, ?_, ?_, fun _ => rfl⟩
    · rw [run, hardikhyperionosParseCommand, if_pos (by omega), run_pure]
    · rw [answered_nil_iff, Accepted]
      simp [hmax]

end ParseCall

/-! ## Runs -/

/-- While every call finishes, every call starts afresh. -/
theorem parseRun_fresh {tr : List (ℕ × (ParseCall × List CommandArgument) × ℕ)} {sp : ℕ}
    (h : Trace ParseStep 0 tr sp) :
    ((∀ x ∈ tr, x.2.1.1.Finishes) → sp = 0) ∧
      ∀ tr₁ x tr₂, tr = tr₁ ++ x :: tr₂ → (∀ y ∈ tr₁, y.2.1.1.Finishes) → x.1 = 0 := by
  have hinv := h.history (I := fun pre sp => (∀ y ∈ pre, y.2.1.1.Finishes) → sp = 0) [] (by simp)
    fun tr₁ s x t tr₂ _ hstep hs hpre => ?_
  · simpa using hinv
  · obtain ⟨m, hrun⟩ := hstep
    simp only [List.nil_append, List.mem_append, List.mem_singleton] at hs hpre
    rw [hs fun y hy => hpre y (.inl hy)] at hrun
    obtain ⟨r, u, hrun', -, hu⟩ := x.1.run_fresh
    rw [hrun, Option.some_inj, Prod.mk.injEq] at hrun'
    rw [← hrun'.2] at hu
    exact hu (hpre _ (.inr rfl))

/-- In a run no call of which but the last runs out of memory, the calls give the right
answers exactly if they are accepted, and if the last does not either there is a next. -/
theorem parseCommand_answered {tr : List (ℕ × (ParseCall × List CommandArgument) × ℕ)} {sp : ℕ}
    (h : Trace ParseStep 0 tr sp) (hfinish : ∀ x ∈ tr.dropLast, x.2.1.1.Finishes) :
    ((∀ x ∈ tr, x.2.1.1.Answered x.2.1.2) ↔ ∀ x ∈ tr, x.2.1.1.Accepted) ∧
      ((∀ x ∈ tr, x.2.1.1.Finishes) → ∀ c, ∃ r sp', ParseStep sp (c, r) sp') := by
  obtain ⟨hend, hfresh⟩ := parseRun_fresh h
  refine ⟨forall₂_congr fun x hx => ?_, fun hall c => ?_⟩
  · obtain ⟨tr₁, tr₂, rfl⟩ := List.append_of_mem hx
    have hstart : x.1 = 0 := hfresh tr₁ x tr₂ rfl fun y hy => hfinish y (by
      rw [List.dropLast_append_cons]
      exact List.mem_append_left _ hy)
    obtain ⟨m, hrun⟩ := h.step_of_mem x hx
    rw [hstart] at hrun
    obtain ⟨r, u, hrun', hiff, -⟩ := x.2.1.1.run_fresh
    rw [hrun, Option.some_inj, Prod.mk.injEq] at hrun'
    rwa [← hrun'.1] at hiff
  · obtain ⟨r, u, hrun, -, -⟩ := c.run_fresh
    rw [hend hall]
    exact ⟨r, u.sp, u.mem, hrun⟩

/-- A step from what the call computes. -/
theorem ParseStep.of_run {x : ParseCall × List CommandArgument} {sp sp' : ℕ}
    (h : (x.1.run sp).map (fun r => (r.1, r.2.sp)) = some (x.2, sp')) : ParseStep sp x sp' := by
  obtain ⟨⟨r, t⟩, hrun, hr⟩ := Option.map_eq_some_iff.1 h
  rw [Prod.mk.injEq] at hr
  obtain ⟨rfl, rfl⟩ := hr
  exact ⟨t.mem, hrun⟩

/-- `a b` with an array on the user stack. -/
def callAB (malloc : ℕ → ℕ) : ParseCall where
  stack := fun _ => 0
  scommand := 0x3FE000
  scommand_ne := by decide
  scommand_fits := by decide
  malloc := malloc
  command := [97, 32, 98]
  command_ne_zero := by simp
  command_lt := by decide
  max := 1024

/-- `c d e` with its array at the same place. -/
def callCDE (malloc : ℕ → ℕ) : ParseCall :=
  { callAB malloc with
    command := [99, 32, 100, 32, 101]
    command_ne_zero := by simp
    command_lt := by decide }

/-- A page for every allocation. -/
def pageEach (i : ℕ) : ℕ := 0x1001000 + 4096 * i

/-- `a b` and then `c d e`, with memory for the first. -/
theorem parseCommand_answered_two :
    (callAB pageEach).Answered [⟨0x1001000, [97]⟩, ⟨0x1002000, [98]⟩] ∧
      (callCDE fun _ => 0).Answered [] := by
  have hfirst : ParseStep 0 (callAB pageEach, [⟨0x1001000, [97]⟩, ⟨0x1002000, [98]⟩]) 0 :=
    .of_run (by decide +kernel)
  have hsecond : ParseStep 0 (callCDE fun _ => 0, []) 0x3FE002 := .of_run (by decide +kernel)
  have htokens : (callAB pageEach).tokens = [[97], [98]] := by decide +kernel
  have hfinish : (callAB pageEach).Finishes := .inr (by rw [htokens]; decide +kernel)
  have hanswered := (parseCommand_answered (.cons hfirst (.cons hsecond (.nil _)))
    (by simpa using hfinish)).1.2 (by simp [ParseCall.Accepted, callAB, callCDE])
  simpa using hanswered

/-- `a b` runs out of memory, and then `c d e` gives the arguments `d` and `e`. -/
theorem parseCommand_leaks : ¬∀ tr sp, Trace ParseStep 0 tr sp →
    (∀ x ∈ tr, x.2.1.1.max = 1024) → ∀ x ∈ tr, x.2.1.1.Answered x.2.1.2 := by
  intro h
  have hfirst : ParseStep 0 (callAB fun _ => 0, []) 0x3FE002 := .of_run (by decide +kernel)
  have hsecond : ParseStep 0x3FE002
      (callCDE pageEach, [⟨0x1001000, [100]⟩, ⟨0x1002000, [101]⟩]) 0 := .of_run (by decide +kernel)
  have hanswered := h _ _ (.cons hfirst (.cons hsecond (.nil 0))) (by simp [callAB, callCDE])
    _ (List.mem_cons_of_mem _ (List.mem_singleton_self _))
  obtain ⟨n, hn⟩ := hanswered.first
  have htokens : (callCDE pageEach).tokens = [[99], [100], [101]] := by decide +kernel
  rw [htokens] at hn
  rcases n with _ | n <;> simp at hn

end Hyperion
