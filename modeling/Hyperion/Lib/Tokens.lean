import Mathlib.Data.List.TakeWhile

/-!
# The tokens of a list

The maximal runs of elements that are not separators, in order.
-/

namespace Tokens

variable {α : Type} {p : α → Bool}

/-- The tokens of `s`, separated by the elements that satisfy `p`. -/
def tokens (p : α → Bool) (s : List α) : List (List α) := (s.splitOnP p).filter fun w => !w.isEmpty

@[simp] theorem tokens_nil : tokens p ([] : List α) = [] := by simp [tokens]

/-- A separator in front changes nothing. -/
theorem tokens_cons_of_pos {d : α} (hd : p d = true) (s : List α) :
    tokens p (d :: s) = tokens p s := by
  simp [tokens, List.splitOnP_cons_eq_if_modifyHead, hd]

/-- Separators in front change nothing. -/
theorem tokens_dropWhile : ∀ s : List α, tokens p (s.dropWhile p) = tokens p s
  | [] => rfl
  | x :: s => by
    by_cases hx : p x = true
    · rw [List.dropWhile_cons_of_pos hx, tokens_dropWhile s, tokens_cons_of_pos hx]
    · rw [List.dropWhile_cons_of_neg hx]

/-- A word with nothing after it is the one token. -/
theorem tokens_word {w : List α} (hne : w ≠ []) (hw : ∀ x ∈ w, p x = false) :
    tokens p w = [w] := by
  simp [tokens, List.splitOnP_eq_singleton hw, hne]

/-- A word and the separator after it give the first token. -/
theorem tokens_word_append {w : List α} {d : α} (hne : w ≠ []) (hw : ∀ x ∈ w, p x = false)
    (hd : p d = true) (s : List α) : tokens p (w ++ d :: s) = w :: tokens p s := by
  simp [tokens, List.splitOnP_append_cons_of_forall_mem hw d hd s, hne]

/-- What is left after the first word and the separator that ends it. -/
def afterWord (p : α → Bool) (s : List α) : List α := (s.dropWhile fun x => !p x).tail

theorem dropWhile_head {s r : List α} {x : α} (h : s.dropWhile p = x :: r) : p x = false := by
  have hne : s.dropWhile p ≠ [] := by simp [h]
  have hhead := List.head_dropWhile_not p hne
  simpa only [h, List.head_cons] using hhead

theorem dropWhile_not_head {s r : List α} {d : α} (h : (s.dropWhile fun x => !p x) = d :: r) :
    p d = true := by
  simpa using dropWhile_head h

theorem length_afterWord_le {x : α} (hx : p x = false) (s : List α) :
    (afterWord p (x :: s)).length ≤ s.length := by
  have hdrop := (List.dropWhile_suffix (l := s) fun y => !p y).length_le
  simp [afterWord, hx]
  omega

/-- The first token is the word in front, the others are those of what is left. -/
theorem tokens_cons_of_neg {x : α} (hx : p x = false) (s : List α) :
    tokens p (x :: s) =
      ((x :: s).takeWhile fun y => !p y) :: tokens p (afterWord p (x :: s)) := by
  have hne : ((x :: s).takeWhile fun y => !p y) ≠ [] := by simp [hx]
  have hw : ∀ y ∈ (x :: s).takeWhile (fun y => !p y), p y = false := fun y hy => by
    simpa using List.mem_takeWhile_imp hy
  have hsplit := List.takeWhile_append_dropWhile (p := fun y => !p y) (l := x :: s)
  unfold afterWord
  cases hrest : (x :: s).dropWhile fun y => !p y with
  | nil =>
    rw [hrest, List.append_nil] at hsplit
    rw [List.tail_nil, tokens_nil, ← tokens_word hne hw, hsplit]
  | cons d r =>
    rw [hrest] at hsplit
    rw [List.tail_cons, ← tokens_word_append hne hw (dropWhile_not_head hrest), hsplit]

/-- There are no more tokens than elements. -/
theorem length_tokens_le : ∀ s : List α, (tokens p s).length ≤ s.length
  | [] => by simp
  | x :: s => by
    by_cases hx : p x = true
    · rw [tokens_cons_of_pos hx]
      exact Nat.le_succ_of_le (length_tokens_le s)
    · rw [Bool.not_eq_true] at hx
      have hafter := length_afterWord_le hx s
      have hrest := length_tokens_le (afterWord p (x :: s))
      rw [tokens_cons_of_neg hx, List.length_cons, List.length_cons]
      omega
termination_by s => s.length
decreasing_by all_goals simp only [List.length_cons]; omega

/-- A list has no token exactly if it is all separators. -/
theorem tokens_eq_nil_iff {s : List α} : tokens p s = [] ↔ s.dropWhile p = [] := by
  rw [← tokens_dropWhile]
  cases h : s.dropWhile p with
  | nil => simp
  | cons x r => simp [tokens_cons_of_neg (dropWhile_head h)]

/-! ## Where the tokens start -/

/-- A token of `s` starts at index `i`. -/
def startsToken (p : α → Bool) (s : List α) (i : ℕ) : Bool :=
  s[i]?.any (fun x => !p x) && (i == 0 || s[i - 1]?.any p)

/-- The indices at which a token starts, in order. -/
def tokenStarts (p : α → Bool) (s : List α) : List ℕ :=
  (List.range s.length).filter (startsToken p s)

/-- The run of elements from index `i` on that are not separators. -/
def wordAt (p : α → Bool) (s : List α) (i : ℕ) : List α := (s.drop i).takeWhile fun x => !p x

theorem lt_of_mem_tokenStarts {s : List α} {i : ℕ} (h : i ∈ tokenStarts p s) : i < s.length :=
  List.mem_range.mp (List.mem_filter.mp h).1

/-- Behind a separator a token starts as at the front. -/
theorem startsToken_append {d : α} (hd : p d = true) (u r : List α) (i : ℕ) :
    startsToken p (u ++ d :: r) (u.length + (i + 1)) = startsToken p r i := by
  have hget : (u ++ d :: r)[u.length + (i + 1)]? = r[i]? := by
    rw [List.getElem?_append_right (by omega), Nat.add_sub_cancel_left, List.getElem?_cons_succ]
  have hprev : (u ++ d :: r)[u.length + (i + 1) - 1]? = (d :: r)[i]? := by
    rw [List.getElem?_append_right (by omega)]
    congr 1
    omega
  have hzero : (u.length + (i + 1) == 0) = false := beq_eq_false_iff_ne.mpr (by omega)
  unfold startsToken
  rw [hget, hprev, hzero]
  cases i with
  | zero => simp [hd]
  | succ i => simp

/-- A separator ends a list of tokens. -/
theorem tokenStarts_append {d : α} (hd : p d = true) (u r : List α) :
    tokenStarts p (u ++ d :: r) =
      tokenStarts p u ++ (tokenStarts p r).map fun i => u.length + (i + 1) := by
  have hleft : (List.range u.length).filter (startsToken p (u ++ d :: r)) = tokenStarts p u :=
    List.filter_congr fun i hi => by
      have hlt := List.mem_range.mp hi
      unfold startsToken
      rw [List.getElem?_append_left hlt, List.getElem?_append_left (by omega)]
  have hsep : startsToken p (u ++ d :: r) (u.length + 0) = false := by
    unfold startsToken
    rw [List.getElem?_append_right (by omega)]
    simp [hd]
  rw [tokenStarts, List.length_append, List.length_cons, List.range_add, List.filter_append, hleft,
    List.range_succ_eq_map, List.map_cons, List.filter_cons_of_neg (by simpa using hsep),
      List.map_map,
    List.filter_map]
  congr 2
  exact List.filter_congr fun i _ => startsToken_append hd u r i

theorem tokenStarts_cons_of_pos {d : α} (hd : p d = true) (s : List α) :
    tokenStarts p (d :: s) = (tokenStarts p s).map (· + 1) := by
  have h := tokenStarts_append hd [] s
  simpa [tokenStarts] using h

/-- A word has one token. -/
theorem tokenStarts_word {w : List α} (hne : w ≠ []) (hw : ∀ x ∈ w, p x = false) :
    tokenStarts p w = [0] := by
  obtain ⟨x, w, rfl⟩ := List.exists_cons_of_ne_nil hne
  have hzero : startsToken p (x :: w) 0 = true := by simp [startsToken, hw x]
  have hrest : ((List.range w.length).map Nat.succ).filter (startsToken p (x :: w)) = [] := by
    refine List.filter_eq_nil_iff.mpr fun i hi => ?_
    obtain ⟨j, hj, rfl⟩ := List.mem_map.mp hi
    have hlt : j < (x :: w).length := by
      have := List.mem_range.mp hj
      rw [List.length_cons]
      omega
    have hprev : (x :: w)[j.succ - 1]? = some (x :: w)[j] := List.getElem?_eq_getElem hlt
    unfold startsToken
    rw [hprev]
    simp [hw _ (List.getElem_mem hlt)]
  rw [tokenStarts, List.length_cons, List.range_succ_eq_map, List.filter_cons_of_pos hzero, hrest]

/-- Separators in front move the tokens. -/
theorem tokenStarts_dropWhile : ∀ s : List α, tokenStarts p s =
    (tokenStarts p (s.dropWhile p)).map (· + (s.takeWhile p).length)
  | [] => by simp
  | x :: s => by
    by_cases hx : p x = true
    · rw [tokenStarts_cons_of_pos hx, tokenStarts_dropWhile s, List.dropWhile_cons_of_pos hx,
        List.takeWhile_cons_of_pos hx, List.map_map]
      rfl
    · rw [List.dropWhile_cons_of_neg hx, List.takeWhile_cons_of_neg hx]
      simp

/-- The first token is in front, the others start in what is left. -/
theorem tokenStarts_cons_of_neg {x : α} (hx : p x = false) (s : List α) :
    tokenStarts p (x :: s) = 0 :: (tokenStarts p (afterWord p (x :: s))).map fun i =>
      (wordAt p (x :: s) 0).length + (i + 1) := by
  have hne : ((x :: s).takeWhile fun y => !p y) ≠ [] := by simp [hx]
  have hw : ∀ y ∈ (x :: s).takeWhile (fun y => !p y), p y = false := fun y hy => by
    simpa using List.mem_takeWhile_imp hy
  have hsplit := List.takeWhile_append_dropWhile (p := fun y => !p y) (l := x :: s)
  unfold afterWord
  cases hrest : (x :: s).dropWhile fun y => !p y with
  | nil =>
    rw [hrest, List.append_nil] at hsplit
    rw [← hsplit, tokenStarts_word hne hw]
    simp [tokenStarts]
  | cons d r =>
    rw [hrest] at hsplit
    have happend := tokenStarts_append (dropWhile_not_head hrest)
      ((x :: s).takeWhile fun y => !p y) r
    rw [hsplit, tokenStarts_word hne hw] at happend
    rw [happend]
    rfl

/-- Behind the separators in front stands the first token, and behind it the others. -/
theorem tokenStarts_eq_cons {s r : List α} {x : α} (h : s.dropWhile p = x :: r) :
    tokenStarts p s = (s.takeWhile p).length :: (tokenStarts p (afterWord p (x :: r))).map fun i =>
      (s.takeWhile p).length + ((wordAt p (x :: r) 0).length + (i + 1)) := by
  rw [tokenStarts_dropWhile, h, tokenStarts_cons_of_neg (dropWhile_head h), List.map_cons,
    List.map_map, Nat.zero_add]
  refine congrArg _ (List.map_congr_left fun i _ => ?_)
  rw [Function.comp_apply, Nat.add_comm]

/-- What is left is behind the first word. -/
theorem afterWord_eq_drop (s : List α) : afterWord p s = s.drop ((wordAt p s 0).length + 1) := by
  have hsplit := List.takeWhile_append_dropWhile (p := fun y => !p y) (l := s)
  have hdrop := congrArg (List.drop (s.takeWhile fun y => !p y).length) hsplit
  rw [List.drop_left] at hdrop
  rw [afterWord, hdrop, List.tail_drop]
  rfl

theorem wordAt_append {u v : List α} (i : ℕ) : wordAt p (u ++ v) (i + u.length) = wordAt p v i := by
  rw [wordAt, wordAt, List.drop_append, List.drop_eq_nil_of_le (by omega), List.nil_append,
    Nat.add_sub_cancel]

theorem wordAt_dropWhile (s : List α) (i : ℕ) :
    wordAt p s ((s.takeWhile p).length + i) = wordAt p (s.dropWhile p) i := by
  have happend := wordAt_append (p := p) (u := s.takeWhile p) (v := s.dropWhile p) i
  rwa [List.takeWhile_append_dropWhile, Nat.add_comm] at happend

theorem wordAt_afterWord (s : List α) (i : ℕ) :
    wordAt p s ((wordAt p s 0).length + (i + 1)) = wordAt p (afterWord p s) i := by
  rw [afterWord_eq_drop]
  generalize (wordAt p s 0).length = n
  rw [wordAt, wordAt, List.drop_drop, Nat.add_comm i 1, Nat.add_assoc]

/-- The words that start there are the tokens. -/
theorem map_wordAt : ∀ s : List α, (tokenStarts p s).map (wordAt p s) = tokens p s
  | [] => by simp [tokenStarts]
  | x :: s => by
    by_cases hx : p x = true
    · have ih := map_wordAt s
      rw [tokenStarts_cons_of_pos hx, tokens_cons_of_pos hx, List.map_map, ← ih]
      exact List.map_congr_left fun i _ => by simp [wordAt]
    · rw [Bool.not_eq_true] at hx
      have hafter := length_afterWord_le hx s
      have ih := map_wordAt (afterWord p (x :: s))
      rw [tokenStarts_cons_of_neg hx, tokens_cons_of_neg hx, List.map_cons, List.map_map, ← ih]
      exact congrArg₂ List.cons rfl (List.map_congr_left fun i _ => wordAt_afterWord (x :: s) i)
termination_by s => s.length
decreasing_by all_goals simp only [List.length_cons]; omega

/-! ## The fields in front of the first empty one -/

section Fields

variable {d : α} {s w r : List α}

/-- The fields are the whole list, but for a separator at its end. -/
def Whole (d : α) (fields : List (List α)) (s : List α) : Prop :=
  s = [d].intercalate fields ∨ s = [d].intercalate fields ++ [d]

theorem Whole.cons_iff {fields : List (List α)} (hne : fields ≠ []) :
    Whole d (w :: fields) (w ++ d :: r) ↔ Whole d fields r := by
  unfold Whole
  rw [List.intercalate_cons_of_ne_nil hne]
  simp

/-- Behind the first separator two are adjacent, or the first one is followed by another. -/
theorem adjacent_append_iff (hw : d ∉ w) :
    [d, d] <:+: w ++ d :: r ↔ r.head? = some d ∨ [d, d] <:+: r := by
  induction w with
  | nil =>
    rw [List.nil_append, List.infix_cons_iff]
    cases r with
    | nil => simp
    | cons x r => simp [eq_comm]
  | cons x w ih =>
    rw [List.mem_cons, not_or] at hw
    rw [List.cons_append, List.infix_cons_iff, ih hw.2]
    simp [hw.1]

theorem not_adjacent (hw : d ∉ w) : ¬[d, d] <:+: w := fun h => hw (h.subset List.mem_cons_self)

variable [DecidableEq α]

/-- The fields of `s` that stand in front of the first empty one. -/
def leadingFields (d : α) (s : List α) : List (List α) :=
  (s.splitOn d).takeWhile fun w => !w.isEmpty

@[simp] theorem leadingFields_nil : leadingFields d [] = [] := by simp [leadingFields]

theorem leadingFields_self (r : List α) : leadingFields d (d :: r) = [] := by
  simp [leadingFields, List.splitOn_cons_eq_if_modifyHead]

/-- A word with nothing after it is the one field. -/
theorem leadingFields_word (hne : w ≠ []) (hw : d ∉ w) : leadingFields d w = [w] := by
  simp [leadingFields, List.splitOn_eq_singleton hw, hne]

/-- A word and the separator after it give the first field. -/
theorem leadingFields_append (hne : w ≠ []) (hw : d ∉ w) (r : List α) :
    leadingFields d (w ++ d :: r) = w :: leadingFields d r := by
  simp [leadingFields, List.splitOn_append_cons_self_of_not_mem hw, hne]

/-- A list has no separator, or a word in front of the first one. -/
theorem word_or_append (d : α) : ∀ s : List α,
    (d ∉ s ∧ s.takeWhile (· ≠ d) = s ∧ s.dropWhile (· ≠ d) = []) ∨
      ∃ w r, s = w ++ d :: r ∧ d ∉ w ∧ s.takeWhile (· ≠ d) = w ∧ s.dropWhile (· ≠ d) = d :: r
  | [] => .inl ⟨List.not_mem_nil, rfl, rfl⟩
  | x :: s => by
    by_cases hx : x = d
    · subst hx
      exact .inr ⟨[], s, rfl, List.not_mem_nil, by simp, by simp⟩
    have hne : decide (x ≠ d) = true := by simpa using hx
    rw [List.takeWhile_cons_of_pos (p := (decide <| · ≠ d)) hne,
      List.dropWhile_cons_of_pos (p := (decide <| · ≠ d)) hne]
    rcases word_or_append d s with ⟨hs, htake, hdrop⟩ | ⟨w, r, rfl, hw, htake, hdrop⟩
    · exact .inl ⟨fun h => (List.mem_cons.mp h).elim (hx ·.symm) hs, by rw [htake], hdrop⟩
    · refine .inr ⟨x :: w, r, rfl, fun h => (List.mem_cons.mp h).elim (hx ·.symm) hw, ?_, hdrop⟩
      rw [htake]

/-- No field comes first exactly if nothing does, or a separator. -/
theorem leadingFields_eq_nil_iff : leadingFields d s = [] ↔ s = [] ∨ s.head? = some d := by
  cases s with
  | nil => simp
  | cons x s =>
    by_cases hx : x = d
    · subst hx
      simp [leadingFields_self]
    · refine iff_of_false (fun hnil => ?_) (by simpa using hx)
      rcases word_or_append d (x :: s) with ⟨hs, -⟩ | ⟨v, t, he, hv, -⟩
      · rw [leadingFields_word (List.cons_ne_nil x s) hs] at hnil
        cases hnil
      · have hne : v ≠ [] := by
          rintro rfl
          exact hx (List.cons.inj he).1
        rw [he, leadingFields_append hne hv] at hnil
        cases hnil

/-- Behind a word the fields in front of the first empty one leave something out exactly if two
separators are adjacent. -/
theorem whole_leadingFields_iff (s : List α) (hhead : s.head? ≠ some d) :
    Whole d (leadingFields d s) s ↔ ¬[d, d] <:+: s := by
  rcases word_or_append d s with ⟨hs, -⟩ | ⟨w, r, rfl, hw, -⟩
  · refine iff_of_true (.inl ?_) (not_adjacent hs)
    cases s with
    | nil => simp
    | cons x s => rw [leadingFields_word (List.cons_ne_nil x s) hs, List.intercalate_singleton]
  have hne : w ≠ [] := by
    rintro rfl
    exact hhead rfl
  rw [leadingFields_append hne hw, adjacent_append_iff hw]
  cases r with
  | nil => simp [Whole]
  | cons x r =>
    by_cases hx : x = d
    · subst hx
      simp [leadingFields_self, Whole]
    · have hhead' : (x :: r).head? ≠ some d := by simpa using hx
      have hfields : leadingFields d (x :: r) ≠ [] := fun hnil =>
        (leadingFields_eq_nil_iff.mp hnil).elim (List.cons_ne_nil x r) hhead'
      rw [Whole.cons_iff hfields, whole_leadingFields_iff (x :: r) hhead', not_or]
      exact ⟨fun h => ⟨hhead', h⟩, fun h => h.2⟩
termination_by s.length
decreasing_by all_goals simp_all; omega

/-- Fields that are not empty and are the whole list are the ones in front. -/
theorem Whole.leadingFields_eq : ∀ {fields : List (List α)} {s : List α}, Whole d fields s →
    fields ≠ [] → (∀ w ∈ fields, w ≠ [] ∧ d ∉ w) → leadingFields d s = fields
  | [w], s, h, _, hf => by
    obtain ⟨hne, hw⟩ := hf w List.mem_cons_self
    rcases h with rfl | rfl
    · rw [List.intercalate_singleton, leadingFields_word hne hw]
    · rw [List.intercalate_singleton, leadingFields_append hne hw, leadingFields_nil]
  | w :: v :: fields, s, h, _, hf => by
    obtain ⟨hne, hw⟩ := hf w List.mem_cons_self
    obtain ⟨r, rfl⟩ : ∃ r, s = w ++ d :: r := by
      unfold Whole at h
      rw [List.intercalate_cons_cons, List.append_assoc, List.append_assoc] at h
      rcases h with rfl | rfl
      · exact ⟨[d].intercalate (v :: fields), rfl⟩
      · exact ⟨[d].intercalate (v :: fields) ++ [d], rfl⟩
    have hrest : Whole d (v :: fields) r := (Whole.cons_iff (List.cons_ne_nil v fields)).mp h
    rw [leadingFields_append hne hw, hrest.leadingFields_eq (List.cons_ne_nil v fields)
      fun u hu => hf u (List.mem_cons_of_mem w hu)]

/-- None of the fields in front is empty or has a separator. -/
theorem leadingFields_word_of_mem {s w : List α} (hmem : w ∈ leadingFields d s) :
    w ≠ [] ∧ d ∉ w := by
  rcases word_or_append d s with ⟨hs, -⟩ | ⟨v, r, rfl, hv, -⟩
  · cases s with
    | nil => simp at hmem
    | cons x s =>
      rw [leadingFields_word (List.cons_ne_nil x s) hs, List.mem_singleton] at hmem
      exact hmem ▸ ⟨List.cons_ne_nil x s, hs⟩
  · cases v with
    | nil => simp [leadingFields_self] at hmem
    | cons x v =>
      rw [leadingFields_append (List.cons_ne_nil x v) hv, List.mem_cons] at hmem
      rcases hmem with rfl | hmem
      · exact ⟨List.cons_ne_nil x v, hv⟩
      · exact leadingFields_word_of_mem hmem
termination_by s.length
decreasing_by all_goals simp_all; omega

end Fields

end Tokens
