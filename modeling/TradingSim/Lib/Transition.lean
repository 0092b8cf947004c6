import Mathlib.Data.List.Basic
import Mathlib.Tactic

/-!
Labelled transition systems: finite executions, the rules for invariants and for budgets, and refinement
mappings that hide the silent steps of the finer system.
-/

namespace TradingSim.Lib

variable {σ τ ε δ : Type*} {step : σ → ε → σ → Prop} {s s' s'' : σ} {tr tr' : List ε}

/-- A finite execution from `s`, with the labels of its steps in order. -/
inductive Exec (step : σ → ε → σ → Prop) (s : σ) : List ε → σ → Prop
  | nil : Exec step s [] s
  | snoc {tr : List ε} {s' s'' : σ} {e : ε} :
      Exec step s tr s' → step s' e s'' → Exec step s (tr ++ [e]) s''

namespace Exec

theorem trans (h : Exec step s tr s') (h' : Exec step s' tr' s'') :
    Exec step s (tr ++ tr') s'' := by
  induction h' with
  | nil => rwa [List.append_nil]
  | snoc _ hstep ih =>
    rw [← List.append_assoc]
    exact ih.snoc hstep

theorem imp {step' : σ → ε → σ → Prop} (h : Exec step s tr s')
    (hstep : ∀ t e t', step t e t' → step' t e t') : Exec step' s tr s' := by
  induction h with
  | nil => exact nil
  | snoc _ hlast ih => exact ih.snoc (hstep _ _ _ hlast)

/-- **The rule for invariants.** What holds at the start and is kept by every step, relative to the
labels so far, holds at the end. -/
theorem rule {I : List ε → σ → Prop} (h : Exec step s tr s') (hI : I [] s)
    (hstep : ∀ tr t e t', I tr t → step t e t' → I (tr ++ [e]) t') : I tr s' := by
  induction h with
  | nil => exact hI
  | snoc _ hlast ih => exact hstep _ _ _ _ ih hlast

/-- **The rule for budgets.** Where every step pays its cost out of what is left, an execution costs at
most what was left at the start. -/
theorem budget {I : σ → Prop} {cost : ε → ℕ} {left : σ → ℕ} (h : Exec step s tr s') (hI : I s)
    (hstep : ∀ t e t', I t → step t e t' → I t' ∧ cost e + left t' ≤ left t) :
    (tr.map cost).sum + left s' ≤ left s := by
  have hpaid : I s' ∧ (tr.map cost).sum + left s' ≤ left s := by
    refine h.rule (I := fun tr t => I t ∧ (tr.map cost).sum + left t ≤ left s) ⟨hI, by simp⟩ ?_
    rintro tr t e t' ⟨ht, hle⟩ hs
    obtain ⟨ht', hpay⟩ := hstep t e t' ht hs
    refine ⟨ht', ?_⟩
    rw [List.map_append, List.sum_append, List.map_singleton, List.sum_singleton]
    omega
  exact hpaid.2

/-- **The rule for budgets that are added to.** A step pays its cost out of what is left and what it brings
in itself. -/
theorem credit {I : σ → Prop} {cost gain : ε → ℕ} {left : σ → ℕ} (h : Exec step s tr s') (hI : I s)
    (hstep : ∀ t e t', I t → step t e t' → I t' ∧ cost e + left t' ≤ left t + gain e) :
    (tr.map cost).sum + left s' ≤ left s + (tr.map gain).sum := by
  have hpaid : I s' ∧ (tr.map cost).sum + left s' ≤ left s + (tr.map gain).sum := by
    refine h.rule (I := fun tr t => I t ∧ (tr.map cost).sum + left t ≤ left s + (tr.map gain).sum)
      ⟨hI, by simp⟩ ?_
    rintro tr t e t' ⟨ht, hle⟩ hs
    obtain ⟨ht', hpay⟩ := hstep t e t' ht hs
    refine ⟨ht', ?_⟩
    simp only [List.map_append, List.sum_append, List.map_singleton, List.sum_singleton]
    omega
  exact hpaid.2

/-- **The rule for progress.** If outside of `goal` there is always a step with a label in `quiet` that
keeps `I` and comes nearer, then such steps lead to `goal`. -/
theorem reaches {I goal : σ → Prop} {quiet : ε → Prop} {left : σ → ℕ} (hI : I s)
    (hstep : ∀ t, I t → ¬ goal t → ∃ e t', step t e t' ∧ quiet e ∧ I t' ∧ left t' < left t) :
    ∃ tr s', Exec step s tr s' ∧ (∀ e ∈ tr, quiet e) ∧ I s' ∧ goal s' := by
  induction hn : left s using Nat.strong_induction_on generalizing s with
  | _ n ih =>
    by_cases hgoal : goal s
    · exact ⟨[], s, nil, by simp, hI, hgoal⟩
    · obtain ⟨e, t, hs, hquiet, ht, hlt⟩ := hstep s hI hgoal
      obtain ⟨tr, s', hexec, htr, hI', hgoal'⟩ := ih (left t) (hn ▸ hlt) ht rfl
      refine ⟨e :: tr, s', (nil.snoc hs).trans hexec, ?_, hI', hgoal'⟩
      simpa using ⟨hquiet, htr⟩

theorem enters {P : σ → Prop} (h : Exec step s tr s') (hs : ¬ P s) (hs' : P s') :
    ∃ tr₁ e tr₂ t t', tr = tr₁ ++ e :: tr₂ ∧ Exec step s tr₁ t ∧ ¬ P t ∧ step t e t' ∧ P t' ∧
      Exec step t' tr₂ s' := by
  induction h with
  | nil => exact absurd hs' hs
  | @snoc tr t t' e hexec hlast ih =>
    by_cases ht : P t
    · obtain ⟨tr₁, d, tr₂, u, u', rfl, h₁, hu, hd, hu', h₂⟩ := ih ht
      exact ⟨tr₁, d, tr₂ ++ [e], u, u', by simp, h₁, hu, hd, hu', h₂.snoc hlast⟩
    · exact ⟨tr, e, [], t, t', rfl, hexec, ht, hlast, hs', nil⟩

/-- A state that every step updates as `f` does with its label is the fold of the labels. -/
theorem foldl_eq {β : Type*} {f : β → ε → β} {g : σ → β} (h : Exec step s tr s')
    (hstep : ∀ t e t', step t e t' → f (g t) e = g t') : tr.foldl f (g s) = g s' := by
  induction h with
  | nil => rfl
  | snoc _ hlast ih => rw [List.foldl_append, ih, List.foldl_cons, List.foldl_nil, hstep _ _ _ hlast]

/-- **Refinement mappings.** If every step keeps `I`, and under `f` it is a step of the coarser
system with the label `vis` shows, or no step where `vis` shows none, then an execution is under `f`
one of the coarser system. -/
theorem refine {step' : τ → δ → τ → Prop} {I : σ → Prop} {f : σ → τ} {vis : ε → Option δ}
    (h : Exec step s tr s') (hI : I s)
    (hstep : ∀ t e t', I t → step t e t' → I t' ∧
      (∀ d, vis e = some d → step' (f t) d (f t')) ∧ (vis e = none → f t' = f t)) :
    I s' ∧ Exec step' (f s) (tr.filterMap vis) (f s') := by
  induction h with
  | nil => exact ⟨hI, nil⟩
  | @snoc tr t t' e _ hlast ih =>
    obtain ⟨hI', hvis, hsilent⟩ := hstep _ _ _ ih.1 hlast
    refine ⟨hI', ?_⟩
    rw [List.filterMap_append]
    cases he : vis e with
    | none =>
      rw [hsilent he, List.filterMap_cons_none he, List.filterMap_nil, List.append_nil]
      exact ih.2
    | some d =>
      rw [List.filterMap_cons_some he, List.filterMap_nil]
      exact ih.2.snoc (hvis d he)

theorem refine_shown {step' : τ → δ → τ → Prop} {vis : ε → Option δ} {e : ε} {d : δ} {t t' : τ}
    (hvis : vis e = some d) (hd : step' t d t') :
    (∀ d', vis e = some d' → step' t d' t') ∧ (vis e = none → t' = t) := by
  rw [hvis]
  refine ⟨?_, by rintro ⟨⟩⟩
  rintro _ ⟨⟩
  exact hd

theorem refine_hidden {step' : τ → δ → τ → Prop} {vis : ε → Option δ} {e : ε} {t t' : τ}
    (hvis : vis e = none) (heq : t' = t) :
    (∀ d, vis e = some d → step' t d t') ∧ (vis e = none → t' = t) := by
  rw [hvis]
  exact ⟨by rintro _ ⟨⟩, fun _ => heq⟩

end Exec

end TradingSim.Lib
