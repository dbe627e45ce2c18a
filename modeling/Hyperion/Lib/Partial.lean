import Mathlib.Tactic.Common

/-!
# Programs that may have no next state

A program over the state `σ` is a `StateT σ Option`. It has no result where the code
it stands for has no defined behaviour. `Meets r m s Q` says that every result of `m`
from `s` satisfies `Q`, and that there is a result if `r` holds. With `r` false it is
the partial-correctness reading, with `r` true the total one, and a proof that leaves
`r` open gives both at once. The rules take `Meets` through the monad's operations, so
that a proof about a `do` block follows the block.
-/

namespace Partial

variable {σ α β : Type}

/-- A program over the state `σ`. -/
abbrev Prog (σ α : Type) := StateT σ Option α

/-- No result. -/
def fault : Prog σ α := fun _ => none

/-- Every result of `m` from `s` satisfies `Q`, and if `r` holds there is one. -/
def Meets (r : Prop) (m : Prog σ α) (s : σ) (Q : α → σ → Prop) : Prop :=
  (∀ a t, m s = some (a, t) → Q a t) ∧ (m s = none → ¬r)

/-! ## What the operations compute -/

theorem run_pure (a : α) (s : σ) : (pure a : Prog σ α) s = some (a, s) := rfl

/-- A sequence runs its first part and goes on from there. -/
theorem run_bind (m : Prog σ α) (f : α → Prog σ β) (s : σ) :
    (m >>= f) s = (m s).bind fun r => f r.1 r.2 := rfl

theorem run_get (s : σ) : (get : Prog σ σ) s = some (s, s) := rfl

theorem run_set (s t : σ) : (set t : Prog σ PUnit) s = some (⟨⟩, t) := rfl

theorem run_modify (f : σ → σ) (s : σ) : (modify f : Prog σ PUnit) s = some (⟨⟩, f s) := rfl

/-- A sequence has a result exactly if both its parts have one. -/
theorem bind_eq_some {m : Prog σ α} {f : α → Prog σ β} {s : σ} {r : β × σ} :
    (m >>= f) s = some r ↔ ∃ a t, m s = some (a, t) ∧ f a t = some r := by
  rw [run_bind, Option.bind_eq_some_iff, Prod.exists]

/-! ## The rules -/

namespace Meets

variable {r : Prop} {m m' : Prog σ α} {s : σ} {Q R : α → σ → Prop}

/-- A contract says what a run does. -/
theorem of_eq (h : Meets r m s Q) {a : α} {t : σ} (e : m s = some (a, t)) : Q a t := h.1 a t e

/-- A program that meets its postcondition totally has a result. -/
theorem exists_result (h : Meets True m s Q) : ∃ a t, m s = some (a, t) ∧ Q a t := by
  cases e : m s with
  | none => exact absurd trivial (h.2 e)
  | some x => exact ⟨x.1, x.2, rfl, h.1 _ _ e⟩

/-- A contract may be weakened. -/
theorem mono (h : Meets r m s Q) (hQ : ∀ a t, Q a t → R a t) : Meets r m s R :=
  ⟨fun a t e => hQ a t (h.1 a t e), h.2⟩

/-- Two contracts of one program hold together. -/
theorem and (h : Meets r m s Q) (h' : Meets r m s R) : Meets r m s fun a t => Q a t ∧ R a t :=
  ⟨fun a t e => ⟨h.1 a t e, h'.1 a t e⟩, h.2⟩

/-- What every result satisfies, beside a postcondition. -/
theorem and_liberal (h : Meets r m s Q) (h' : Meets False m s R) :
    Meets r m s fun a t => Q a t ∧ R a t :=
  ⟨fun a t e => ⟨h.1 a t e, h'.1 a t e⟩, h.2⟩

/-- What is known of a program with no rule : its result is its result. -/
theorem self : Meets False m s fun a t => m s = some (a, t) := ⟨fun _ _ e => e, fun _ => id⟩

/-- A total result is a result under every condition. -/
theorem of_total (h : Meets True m s Q) : Meets r m s Q := ⟨h.1, fun e => absurd trivial (h.2 e)⟩

/-- What every result satisfies, if there is one. -/
theorem of_liberal (h : Meets False m s Q) (hr : r → ∃ a t, m s = some (a, t)) : Meets r m s Q :=
  ⟨h.1, fun e hr' => by
    obtain ⟨a, t, e'⟩ := hr hr'
    rw [e] at e'
    cases e'⟩

/-- A program whose run is known meets what holds of its result. -/
theorem of_run_eq {a : α} {t : σ} (e : m s = some (a, t)) (h : Q a t) : Meets r m s Q := by
  constructor
  · intro b u e'
    rw [e] at e'
    cases e'
    exact h
  · intro e'
    rw [e] at e'
    cases e'

/-- A program without a result meets every partial contract. -/
theorem of_run_none (e : m s = none) (h : ¬r) : Meets r m s Q := by
  refine ⟨fun a t e' => ?_, fun _ => h⟩
  rw [e] at e'
  cases e'

/-- Undefined behaviour meets only partial contracts. -/
@[simp] theorem fault_iff : Meets r (fault : Prog σ α) s Q ↔ ¬r :=
  ⟨fun h => h.2 rfl, fun h => ⟨fun _ _ e => (nomatch e), fun _ => h⟩⟩

/-- To return meets what holds already. -/
@[simp] theorem pure_iff {a : α} : Meets r (pure a : Prog σ α) s Q ↔ Q a s := by
  simp [Meets, run_pure]

/-- A sequence is proved from its first part on. -/
@[simp] theorem bind_iff {f : α → Prog σ β} {Q : β → σ → Prop} :
    Meets r (m >>= f) s Q ↔ Meets r m s fun a t => Meets r (f a) t Q := by
  unfold Meets
  rw [run_bind]
  cases m s with
  | none => simp
  | some x =>
    refine ⟨fun h => ⟨fun a t e => by cases e; exact h, fun e => nomatch e⟩, fun h => ?_⟩
    exact h.1 _ _ rfl

/-- To read the state is to go on with it. -/
@[simp] theorem get_iff {Q : σ → σ → Prop} : Meets r (get : Prog σ σ) s Q ↔ Q s s := by
  simp [Meets, run_get]

/-- To set the state is to go on with the new one. -/
@[simp] theorem set_iff {t : σ} {Q : PUnit → σ → Prop} :
    Meets r (set t : Prog σ PUnit) s Q ↔ Q ⟨⟩ t :=
  ⟨fun h => h.1 _ _ rfl, of_run_eq rfl⟩

/-- To change the state is to go on with the changed one. -/
@[simp] theorem modify_iff {f : σ → σ} {Q : PUnit → σ → Prop} :
    Meets r (modify f : Prog σ PUnit) s Q ↔ Q ⟨⟩ (f s) :=
  ⟨fun h => h.1 _ _ rfl, of_run_eq rfl⟩

/-- A branch is proved for both its cases. -/
@[simp] theorem ite_iff {c : Prop} [Decidable c] :
    Meets r (if c then m else m') s Q ↔ (c → Meets r m s Q) ∧ (¬c → Meets r m' s Q) := by
  split_ifs with h <;> simp [h]

/-- Sequencing : what the first program ensures is assumed of the second. -/
theorem bind {f : α → Prog σ β} {Q' : β → σ → Prop} (h : Meets r m s Q)
    (hf : ∀ a t, Q a t → Meets r (f a) t Q') : Meets r (m >>= f) s Q' :=
  bind_iff.mpr (h.mono hf)

end Meets

/-! ## Results that do not depend on the state -/

/-- Whatever the state, the result of `m` is `o`. -/
def Computes (m : Prog σ α) (o : Option α) : Prop := ∀ s, (m s).map Prod.fst = o

namespace Computes

variable {m m' : Prog σ α} {o o' : Option α}

theorem pure (a : α) : Computes (pure a : Prog σ α) (some a) := fun _ => rfl

theorem fault : Computes (fault : Prog σ α) none := fun _ => rfl

theorem modify (f : σ → σ) : Computes (modify f : Prog σ PUnit) (some ⟨⟩) := fun _ => rfl

theorem bind {f : α → Prog σ β} {g : α → Option β} (h : Computes m o)
    (hf : ∀ a, Computes (f a) (g a)) : Computes (m >>= f) (o.bind g) := fun s => by
  rw [← h s, run_bind]
  cases m s with
  | none => rfl
  | some x => exact hf x.1 x.2

theorem ite {c : Prop} [Decidable c] (h : Computes m o) (h' : Computes m' o') :
    Computes (if c then m else m') (if c then o else o') := by
  split_ifs
  · exact h
  · exact h'

/-- The result of a run from any state. -/
theorem eq_some (h : Computes m o) {s t : σ} {a : α} (e : m s = some (a, t)) : o = some a := by
  rw [← h s, e]
  rfl

/-- A program that computes a value has a run from every state. -/
theorem exists_run {a : α} (h : Computes m (some a)) (s : σ) : ∃ t, m s = some (a, t) := by
  obtain ⟨⟨_, t⟩, e, rfl⟩ := Option.map_eq_some_iff.mp (h s)
  exact ⟨t, e⟩

end Computes

/-! ## Observations -/

/-- No run of `m` changes what `v` sees of the state. -/
def Unchanged {V : Type} (v : σ → V) (m : Prog σ α) : Prop := ∀ s a t, m s = some (a, t) → v t = v s

namespace Unchanged

variable {V : Type} {v : σ → V} {m m' : Prog σ α}

theorem pure (a : α) : Unchanged v (pure a : Prog σ α) := fun s b t h => by
  cases h
  rfl

theorem fault : Unchanged v (fault : Prog σ α) := fun _ _ _ h => nomatch h

theorem modify {f : σ → σ} (h : ∀ s, v (f s) = v s) :
    Unchanged v (modify f : Prog σ PUnit) := fun s _ _ e => by
  cases e
  exact h s

theorem bind {f : α → Prog σ β} (h : Unchanged v m) (hf : ∀ a, Unchanged v (f a)) :
    Unchanged v (m >>= f) := fun s b u e => by
  obtain ⟨a, t, hm, hfa⟩ := bind_eq_some.mp e
  exact (hf a t b u hfa).trans (h s a t hm)

theorem ite {c : Prop} [Decidable c] (h : Unchanged v m) (h' : Unchanged v m') :
    Unchanged v (if c then m else m') := by
  split_ifs
  · exact h
  · exact h'

end Unchanged

/-- Every run of `m` ends in a state related to the one it starts in. -/
def Stays (R : σ → σ → Prop) (m : Prog σ α) : Prop := ∀ s a t, m s = some (a, t) → R s t

namespace Stays

variable {R : σ → σ → Prop} {m m' : Prog σ α}

theorem pure (hR : ∀ s, R s s) (a : α) : Stays R (pure a : Prog σ α) := fun s b t h => by
  cases h
  exact hR s

theorem fault : Stays R (fault : Prog σ α) := fun _ _ _ h => nomatch h

theorem modify {f : σ → σ} (h : ∀ s, R s (f s)) : Stays R (modify f : Prog σ PUnit) :=
  fun s _ _ e => by
    cases e
    exact h s

theorem bind (hR : ∀ {s t u}, R s t → R t u → R s u) {f : α → Prog σ β} (h : Stays R m)
    (hf : ∀ a, Stays R (f a)) : Stays R (m >>= f) := fun s b u e => by
  obtain ⟨a, t, hm, hfa⟩ := bind_eq_some.mp e
  exact hR (h s a t hm) (hf a t b u hfa)

theorem ite {c : Prop} [Decidable c] (h : Stays R m) (h' : Stays R m') :
    Stays R (if c then m else m') := by
  split_ifs
  · exact h
  · exact h'

/-- What a program keeps is a partial contract of it. -/
theorem meets (h : Stays R m) (s : σ) : Meets False m s fun _ t => R s t :=
  ⟨fun a t e => h s a t e, fun _ => id⟩

end Stays

/-- From related states `m` has the same result and ends in related states. -/
def Respects (R : σ → σ → Prop) (m : Prog σ α) : Prop :=
  ∀ s t a s', R s t → m s = some (a, s') → ∃ t', m t = some (a, t') ∧ R s' t'

namespace Respects

variable {R : σ → σ → Prop} {m m' : Prog σ α}

theorem pure (a : α) : Respects R (pure a : Prog σ α) := fun s t b s' hR h => by
  cases h
  exact ⟨t, rfl, hR⟩

theorem fault : Respects R (fault : Prog σ α) := fun _ _ _ _ _ h => nomatch h

theorem bind {f : α → Prog σ β} (h : Respects R m) (hf : ∀ a, Respects R (f a)) :
    Respects R (m >>= f) := fun s t b s' hR e => by
  obtain ⟨a, s₁, hm, hfa⟩ := bind_eq_some.mp e
  obtain ⟨t₁, hm', hR₁⟩ := h s t a s₁ hR hm
  obtain ⟨t', hfa', hR'⟩ := hf a s₁ t₁ b s' hR₁ hfa
  exact ⟨t', bind_eq_some.mpr ⟨a, t₁, hm', hfa'⟩, hR'⟩

theorem ite {c : Prop} [Decidable c] (h : Respects R m) (h' : Respects R m') :
    Respects R (if c then m else m') := by
  split_ifs
  · exact h
  · exact h'

end Respects

end Partial
