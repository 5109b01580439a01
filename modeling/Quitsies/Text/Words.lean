import Mathlib.Tactic.TypeStar

/-!
# Words and the separators behind them

Text in which every word is ended by exactly one separator. Two separators in a row
have the empty word between them.
-/

namespace Quitsies.Text

variable {α : Type*} {sep : α → Bool}

/-- `s` is the words `ws`, none with a separator in it, each with one behind it. -/
inductive Words (sep : α → Bool) : List (List α) → List α → Prop
  | nil : Words sep [] []
  | cons {w : List α} {c : α} {ws : List (List α)} {s : List α}
      (plain : ∀ x ∈ w, sep x = false) (ends : sep c = true) (rest : Words sep ws s) :
      Words sep (w :: ws) (w ++ c :: s)

theorem Words.one {w : List α} {c : α} (plain : ∀ x ∈ w, sep x = false) (ends : sep c = true) :
    Words sep [w] (w ++ [c]) := .cons plain ends .nil

theorem words_append {ws ws' : List (List α)} {s s' : List α} (h : Words sep ws s)
    (h' : Words sep ws' s') : Words sep (ws ++ ws') (s ++ s') := by
  induction h with
  | nil => exact h'
  | cons plain ends _ ih =>
    rw [List.append_assoc, List.cons_append]
    exact .cons plain ends ih

/-- A text of words begins with the first of them. -/
theorem Words.cons_inv {w : List α} {ws : List (List α)} {s : List α} (h : Words sep (w :: ws) s) :
    ∃ c s', s = w ++ c :: s' ∧ (∀ x ∈ w, sep x = false) ∧ sep c = true ∧ Words sep ws s' := by
  cases h with
  | cons plain ends rest => exact ⟨_, _, rfl, plain, ends, rest⟩

end Quitsies.Text
