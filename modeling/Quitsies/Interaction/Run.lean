import Mathlib.Data.List.Basic

/-!
# Runs of a transition relation

A run is kept as the list of its transitions, each with the states before and
after it, so that a property of a run can speak of what was the case at a step.
Invariants are proved for one step and lifted by `Run.invariant`; a property
that counts transitions is lifted by `Run.history`.
-/

namespace Quitsies.Interaction

variable {σ Λ : Type}

structure Transition (σ Λ : Type) where
  before : σ
  label : Λ
  after : σ

/-- The runs from `s₀`, extended one step at a time. -/
inductive Run (step : σ → Λ → σ → Prop) (s₀ : σ) : List (Transition σ Λ) → σ → Prop
  | start : Run step s₀ [] s₀
  | snoc {ts : List (Transition σ Λ)} {s s' : σ} {l : Λ} :
      Run step s₀ ts s → step s l s' → Run step s₀ (ts ++ [⟨s, l, s'⟩]) s'

namespace Run

variable {step : σ → Λ → σ → Prop} {s₀ s : σ} {ts : List (Transition σ Λ)}

/-- A property of a run and the state it reaches, kept by every step that meets
the condition `ok`, holds of every run whose steps all meet it. -/
theorem history (ok : Transition σ Λ → Prop) (H : List (Transition σ Λ) → σ → Prop)
    (h₀ : H [] s₀)
    (hstep : ∀ ts s l s', Run step s₀ ts s → H ts s → step s l s' → ok ⟨s, l, s'⟩ →
      H (ts ++ [⟨s, l, s'⟩]) s')
    (hrun : Run step s₀ ts s) (hok : ∀ t ∈ ts, ok t) : H ts s := by
  induction hrun with
  | start => exact h₀
  | snoc hrun hs ih =>
    exact hstep _ _ _ _ hrun (ih fun t ht => hok t (List.mem_append_left _ ht)) hs
      (hok _ (by simp))

/-- An invariant kept by every step holds in every state reached. -/
theorem invariant {I : σ → Prop} (h₀ : I s₀) (hstep : ∀ s l s', I s → step s l s' → I s')
    (hrun : Run step s₀ ts s) : I s := by
  induction hrun with
  | start => exact h₀
  | snoc _ hs ih => exact hstep _ _ _ ih hs

/-- A run stays a run where more steps are possible. -/
theorem mono {step' : σ → Λ → σ → Prop} (hstep : ∀ s l s', step s l s' → step' s l s')
    (hrun : Run step s₀ ts s) : Run step' s₀ ts s := by
  induction hrun with
  | start => exact .start
  | snoc _ hs ih => exact ih.snoc (hstep _ _ _ hs)

/-- Cutting a run at one of its transitions. -/
theorem split {ts₁ ts₂ : List (Transition σ Λ)} {t : Transition σ Λ}
    (hrun : Run step s₀ (ts₁ ++ t :: ts₂) s) :
    Run step s₀ ts₁ t.before ∧ step t.before t.label t.after ∧
      Run step s₀ (ts₁ ++ [t]) t.after := by
  generalize hts : ts₁ ++ t :: ts₂ = ts at hrun
  induction hrun generalizing ts₂ with
  | start => simp at hts
  | @snoc ts s s' l hrun hs ih =>
    rcases List.eq_nil_or_concat ts₂ with rfl | ⟨rest, u, rfl⟩
    · obtain ⟨rfl, ht⟩ := List.append_inj' hts rfl
      obtain rfl := List.singleton_inj.mp ht
      exact ⟨hrun, hs, hrun.snoc hs⟩
    · rw [List.concat_eq_append, ← List.cons_append, ← List.append_assoc] at hts
      exact ih (List.append_inj' hts rfl).1

/-- What follows a transition of a run is a run from where it led. -/
theorem suffix {ts₁ ts₂ : List (Transition σ Λ)} {t : Transition σ Λ}
    (hrun : Run step s₀ (ts₁ ++ t :: ts₂) s) : Run step t.after ts₂ s := by
  generalize hts : ts₁ ++ t :: ts₂ = ts at hrun
  induction hrun generalizing ts₂ with
  | start => simp at hts
  | @snoc ts s s' l hrun hs ih =>
    rcases List.eq_nil_or_concat ts₂ with rfl | ⟨rest, u, rfl⟩
    · obtain ⟨-, ht⟩ := List.append_inj' hts rfl
      obtain rfl := List.singleton_inj.mp ht
      exact .start
    · rw [List.concat_eq_append, ← List.cons_append, ← List.append_assoc] at hts
      obtain ⟨hrest, hu⟩ := List.append_inj' hts rfl
      obtain rfl := List.singleton_inj.mp hu
      rw [List.concat_eq_append]
      exact (ih hrest).snoc hs

/-- Every transition of a run is a step from a state that a prefix of it reached. -/
theorem of_mem (hrun : Run step s₀ ts s) {t : Transition σ Λ} (ht : t ∈ ts) :
    ∃ ts₁, Run step s₀ ts₁ t.before ∧ step t.before t.label t.after ∧ ∀ u ∈ ts₁, u ∈ ts := by
  obtain ⟨ts₁, ts₂, rfl⟩ := List.append_of_mem ht
  exact ⟨ts₁, hrun.split.1, hrun.split.2.1, fun u hu => List.mem_append_left _ hu⟩

end Run

end Quitsies.Interaction
