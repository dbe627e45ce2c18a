import Mathlib.Data.List.Basic

/-!
# Traces of a labelled step relation

`Trace step s tr u` : from the state `s` the steps listed in `tr`, each with its
source, label and target, lead to `u`. A property of runs is a property of every
step of every trace. `Trace.invariant` carries an invariant along the steps that
meet a side condition, and `Trace.forall_iff` turns a step-by-step equivalence
into one between whole traces.
-/

/-- The steps of `tr`, in order, from the first state to the last. -/
inductive Trace {S L : Type} (step : S → L → S → Prop) : S → List (S × L × S) → S → Prop
  | nil (s : S) : Trace step s [] s
  | cons {s t u : S} {l : L} {tr : List (S × L × S)} :
      step s l t → Trace step t tr u → Trace step s ((s, l, t) :: tr) u

namespace Trace

variable {S L : Type} {step : S → L → S → Prop} {s u : S} {tr : List (S × L × S)}

/-- Every listed step is a step of the system. -/
theorem step_of_mem (h : Trace step s tr u) : ∀ x ∈ tr, step x.1 x.2.1 x.2.2 := by
  induction h with
  | nil s => simp
  | cons hs _ ih =>
    intro x hx
    rcases List.mem_cons.mp hx with rfl | hx
    · exact hs
    · exact ih x hx

theorem append {t : S} {tr' : List (S × L × S)} (h : Trace step s tr t)
    (h' : Trace step t tr' u) : Trace step s (tr ++ tr') u := by
  induction h with
  | nil s => exact h'
  | cons hs _ ih => exact .cons hs (ih h')

/-- An invariant kept by the steps that meet `C` holds before and after every step
of a trace all of whose steps meet `C`. -/
theorem invariant {I : S → Prop} {C : S → L → S → Prop} (h : Trace step s tr u) (h0 : I s)
    (hstep : ∀ s l t, step s l t → C s l t → I s → I t)
    (hC : ∀ x ∈ tr, C x.1 x.2.1 x.2.2) : (∀ x ∈ tr, I x.1 ∧ I x.2.2) ∧ I u := by
  induction h with
  | nil s => exact ⟨by simp, h0⟩
  | @cons s t u l tr hs _ ih =>
    have ht : I t := hstep s l t hs (hC (s, l, t) (by simp)) h0
    obtain ⟨htr, hu⟩ := ih ht fun x hx => hC x (List.mem_cons_of_mem _ hx)
    refine ⟨fun x hx => ?_, hu⟩
    rcases List.mem_cons.mp hx with rfl | hx
    · exact ⟨h0, ht⟩
    · exact htr x hx

/-- If in the states that satisfy the invariant a step is good exactly when it meets
`C`, and the steps that meet `C` keep the invariant, then a trace has only good
steps exactly when all its steps meet `C`. -/
theorem forall_iff {I : S → Prop} {P C : S → L → S → Prop} (h : Trace step s tr u) (h0 : I s)
    (hstep : ∀ s l t, step s l t → C s l t → I s → I t)
    (hiff : ∀ s l t, step s l t → I s → (P s l t ↔ C s l t)) :
    (∀ x ∈ tr, P x.1 x.2.1 x.2.2) ↔ ∀ x ∈ tr, C x.1 x.2.1 x.2.2 := by
  induction h with
  | nil s => simp
  | @cons s t u l tr hs _ ih =>
    simp only [List.forall_mem_cons, hiff s l t hs h0]
    exact and_congr_right fun hC => ih (hstep s l t hs hC h0)

/-- An invariant of the history : what holds of the steps so far and the state they led to,
and is kept by each step of the trace, holds at every step and at the end. -/
theorem history {I : List (S × L × S) → S → Prop} (h : Trace step s tr u)
    (pre : List (S × L × S)) (h0 : I pre s)
    (hstep : ∀ tr₁ s l t tr₂, tr = tr₁ ++ (s, l, t) :: tr₂ → step s l t → I (pre ++ tr₁) s →
      I (pre ++ tr₁ ++ [(s, l, t)]) t) :
    I (pre ++ tr) u ∧ ∀ tr₁ x tr₂, tr = tr₁ ++ x :: tr₂ → I (pre ++ tr₁) x.1 := by
  induction h generalizing pre with
  | nil s => simpa using h0
  | @cons s t u l tr hs _ ih =>
    have ht : I (pre ++ [(s, l, t)]) t := by
      have := hstep [] s l t tr rfl hs
      simp only [List.append_nil] at this
      exact this h0
    obtain ⟨hend, hmid⟩ := ih (pre ++ [(s, l, t)]) ht fun tr₁ s' l' t' tr₂ htr hs' hi => by
      have := hstep ((s, l, t) :: tr₁) s' l' t' tr₂ (by rw [htr]; rfl) hs'
      simp only [List.append_assoc, List.singleton_append] at hi this ⊢
      exact this hi
    refine ⟨by simpa using hend, fun tr₁ x tr₂ htr => ?_⟩
    cases tr₁ with
    | nil =>
      obtain ⟨rfl, -⟩ := List.cons.inj htr
      simpa using h0
    | cons y tr₁ =>
      obtain ⟨rfl, htail⟩ := List.cons.inj htr
      simpa using hmid tr₁ x tr₂ htail

end Trace
