import Mathlib.Data.List.Basic

/-!
# Computations that throw

A computation over a state that it keeps when it throws. What it comes to is said by
the states in which it returns and by what it makes of them; in every other state it
throws. The rules follow how computations are put together.
-/

namespace Quitsies.Interaction

variable {ε σ α : Type}

/-- It returns from the states where `holds`, with `effect` done to them, and throws
from all others. -/
structure ReturnsWhen (x : ExceptT ε (StateM σ) Unit) (holds : σ → Prop) (effect : σ → σ) :
    Prop where
  returned : ∀ s, holds s → x.run s = (.ok (), effect s)
  thrown : ∀ s, ¬ holds s → ∃ e s', x.run s = (.error e, s')

section Bind

variable {x : ExceptT ε (StateM σ) α} {s s' : σ}

theorem run_bind_ok {β : Type} {a : α} (f : α → ExceptT ε (StateM σ) β)
    (h : x.run s = (.ok a, s')) : (x >>= f).run s = (f a).run s' := by
  show (ExceptT.bind x f).run s = (f a).run s'
  show (match x.run s with | (r, s') => ExceptT.bindCont f r s') = (f a).run s'
  rw [h]
  rfl

theorem run_bind_error {β : Type} {e : ε} (f : α → ExceptT ε (StateM σ) β)
    (h : x.run s = (.error e, s')) : (x >>= f).run s = (.error e, s') := by
  show (match x.run s with | (r, s') => ExceptT.bindCont f r s') = (.error e, s')
  rw [h]
  rfl

end Bind

/-- Catching what a computation throws keeps what it has done. -/
theorem run_caught (x : ExceptT ε (StateM σ) Unit) (s : σ) :
    (tryCatch x fun _ => pure ()).run s = (.ok (), (x.run s).2) := by
  rw [ExceptT.run_tryCatch]
  cases hx : x.run s with
  | mk r s' => cases r <;> simp only [bind, StateT.bind, hx] <;> rfl

namespace ReturnsWhen

variable {x y : ExceptT ε (StateM σ) Unit} {p q : σ → Prop} {f g : σ → σ}

theorem modify (f : σ → σ) :
    ReturnsWhen (modify f : ExceptT ε (StateM σ) Unit) (fun _ => True) f where
  returned _ _ := rfl
  thrown _ h := absurd trivial h

theorem throw (e : ε) :
    ReturnsWhen (throw e : ExceptT ε (StateM σ) Unit) (fun _ => False) id where
  returned _ h := h.elim
  thrown s _ := ⟨e, s, rfl⟩

theorem skip : ReturnsWhen (pure () : ExceptT ε (StateM σ) Unit) (fun _ => True) id where
  returned _ _ := rfl
  thrown _ h := absurd trivial h

/-- One after the other: both return, and the second one sees what the first one did. -/
theorem bind (hx : ReturnsWhen x p f) {k : Unit → ExceptT ε (StateM σ) Unit}
    (hy : ReturnsWhen (k ()) q g) :
    ReturnsWhen (x >>= k) (fun s => p s ∧ q (f s)) (g ∘ f) where
  returned s h := by
    rw [run_bind_ok k (hx.returned s h.1)]
    exact hy.returned (f s) h.2
  thrown s h := by
    by_cases hp : p s
    · rw [run_bind_ok k (hx.returned s hp)]
      exact hy.thrown (f s) fun hq => h ⟨hp, hq⟩
    · obtain ⟨e, s', he⟩ := hx.thrown s hp
      exact ⟨e, s', run_bind_error k he⟩

theorem congr {p' : σ → Prop} {f' : σ → σ} (h : ReturnsWhen x p f) (hp : ∀ s, p' s ↔ p s)
    (hf : ∀ s, p' s → f' s = f s) : ReturnsWhen x p' f' where
  returned s hs := by
    rw [h.returned s ((hp s).mp hs), hf s hs]
  thrown s hs := h.thrown s fun hs' => hs ((hp s).mpr hs')

/-- A loop over a list whose body returns or throws whatever the state. -/
theorem forM {ι : Type} {body : ι → ExceptT ε (StateM σ) Unit} {p : ι → Prop} {f : ι → σ → σ}
    (h : ∀ i, ReturnsWhen (body i) (fun _ => p i) (f i)) (is : List ι) :
    ReturnsWhen (is.forM body) (fun _ => ∀ i ∈ is, p i) fun s => is.foldl (fun s i => f i s) s := by
  induction is with
  | nil => exact skip.congr (by simp) fun _ _ => rfl
  | cons i is ih =>
    exact ((h i).bind (k := fun _ => is.forM body) ih).congr (by simp) fun _ _ => rfl

end ReturnsWhen

end Quitsies.Interaction
