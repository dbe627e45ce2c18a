import Mathlib.Data.List.Basic
import Mathlib.Tactic.Common

/-!
# Domains that do not interfere

A machine whose calls are made on domains, and a view of the state for each domain. If a
call's outcome and its domain's next view come from the view alone (`Separated.own`), and
no call changes the view of another domain (`Separated.other`), then in every sequence of
calls each domain gets what it gets when its own calls are made alone, in the same order.
-/

variable {D C O S V : Type}

/-- The calls, in order. A call without a result ends the run. -/
def runCalls (step : D → C → S → Option (O × S)) : List (D × C) → S → Option (List (D × O) × S)
  | [], s => some ([], s)
  | (d, c) :: calls, s => do
    let (o, s) ← step d c s
    let (os, s) ← runCalls step calls s
    return ((d, o) :: os, s)

/-- Each domain's calls see and change its own view only. -/
structure Separated (step : D → C → S → Option (O × S)) (view : D → S → V) : Prop where
  own : ∀ d c s t o s', view d s = view d t → step d c s = some (o, s') →
    ∃ t', step d c t = some (o, t') ∧ view d s' = view d t'
  other : ∀ d e c s o s', d ≠ e → step d c s = some (o, s') → view e s' = view e s

/-- What belongs to the domain `d`. -/
def ofDomain {A : Type} [DecidableEq D] (d : D) (xs : List (D × A)) : List (D × A) :=
  xs.filter (·.1 = d)

section OfDomain

variable [DecidableEq D] {A : Type} {d e : D} {a : A} {xs : List (D × A)}

theorem ofDomain_same : ofDomain d ((d, a) :: xs) = (d, a) :: ofDomain d xs :=
  List.filter_cons_of_pos (by simp)

theorem ofDomain_ne (h : e ≠ d) : ofDomain d ((e, a) :: xs) = ofDomain d xs :=
  List.filter_cons_of_neg (by simpa using h)

end OfDomain

section Runs

variable {step : D → C → S → Option (O × S)} {view : D → S → V} {d : D} {c : C}

theorem runCalls_cons {calls : List (D × C)} {s u : S} {os : List (D × O)} :
    runCalls step ((d, c) :: calls) s = some (os, u) ↔ ∃ o s' os', step d c s = some (o, s') ∧
      runCalls step calls s' = some (os', u) ∧ os = (d, o) :: os' := by
  simp only [runCalls, Option.bind_eq_bind, Option.bind_eq_some_iff, Prod.exists, Option.pure_def,
    Option.some.injEq, Prod.mk.injEq]
  constructor
  · rintro ⟨o, s', hs, os', v, hr, rfl, rfl⟩
    exact ⟨o, s', os', hs, hr, rfl⟩
  · rintro ⟨o, s', os', hs, hr, rfl⟩
    exact ⟨o, s', hs, os', u, hr, rfl, rfl⟩

namespace Separated

variable [DecidableEq D]

/-- From a state of the same view a domain's calls alone have the outcomes that they have
among all the others. -/
theorem alone (h : Separated step view) : ∀ {calls : List (D × C)} {s t u : S}
    {os : List (D × O)}, view d s = view d t → runCalls step calls s = some (os, u) →
    ∃ v, runCalls step (ofDomain d calls) t = some (ofDomain d os, v)
  | [], s, t, u, os, _, hr => by
    cases hr
    exact ⟨t, rfl⟩
  | (e, c) :: calls, s, t, u, os, hv, hr => by
    obtain ⟨o, s', os', hs, hrest, rfl⟩ := runCalls_cons.mp hr
    by_cases he : d = e
    · subst he
      obtain ⟨t', ht, hv'⟩ := h.own _ _ _ _ _ _ hv hs
      obtain ⟨v, hown⟩ := alone h hv' hrest
      rw [ofDomain_same, ofDomain_same]
      exact ⟨v, runCalls_cons.mpr ⟨o, t', _, ht, hown, rfl⟩⟩
    · rw [ofDomain_ne (Ne.symm he), ofDomain_ne (Ne.symm he)]
      exact alone h ((h.other _ _ _ _ _ _ (Ne.symm he) hs).trans hv) hrest

/-- If every domain's calls have results alone, all of them have in any order. -/
theorem together (h : Separated step view) : ∀ {calls : List (D × C)} {s : S},
    (∀ d, ∃ t r, view d t = view d s ∧ runCalls step (ofDomain d calls) t = some r) →
    ∃ r, runCalls step calls s = some r
  | [], s, _ => ⟨_, rfl⟩
  | (e, c) :: calls, s, halone => by
    obtain ⟨t, ⟨os, u⟩, hv, hr⟩ := halone e
    rw [ofDomain_same] at hr
    obtain ⟨o, t', os', ht, hown, rfl⟩ := runCalls_cons.mp hr
    obtain ⟨s', hs, hv'⟩ := h.own _ _ _ _ _ _ hv ht
    have hrest : ∀ d, ∃ t r, view d t = view d s' ∧
        runCalls step (ofDomain d calls) t = some r := by
      intro d
      by_cases hd : e = d
      · subst hd
        exact ⟨t', _, hv', hown⟩
      · obtain ⟨t₁, r, hv₁, hr₁⟩ := halone d
        rw [ofDomain_ne hd] at hr₁
        exact ⟨t₁, r, hv₁.trans (h.other _ _ _ _ _ _ hd hs).symm, hr₁⟩
    obtain ⟨⟨os'', u'⟩, htail⟩ := together h hrest
    exact ⟨_, runCalls_cons.mpr ⟨o, s', os'', hs, htail, rfl⟩⟩

end Separated

end Runs
