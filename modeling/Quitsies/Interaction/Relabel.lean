import Mathlib.Data.List.Forall2
import Quitsies.Interaction.Linear

/-!
# Requests under other names

The requests of one pool may be those of another with more around them: what a client
runs is the other's program, and what it returns is made of what that one returns.
Every run of the one is then a run of the other, call by call.
-/

namespace Quitsies.Interaction

section Map

variable {σ τ Λ : Type} {step : σ → Λ → σ → Prop} {step' : τ → Λ → τ → Prop} (f : σ → τ)

def Transition.map (t : Transition σ Λ) : Transition τ Λ := ⟨f t.before, t.label, f t.after⟩

/-- A run seen through a function that sees steps as steps. -/
theorem Run.map (hstep : ∀ s l s', step s l s' → step' (f s) l (f s')) {s₀ s : σ}
    {ts : List (Transition σ Λ)} (h : Run step s₀ ts s) :
    Run step' (f s₀) (ts.map (Transition.map f)) (f s) := by
  induction h with
  | start => exact .start
  | snoc _ hs ih =>
    rw [List.map_append]
    exact ih.snoc (hstep _ _ _ hs)

end Map

section Related

variable {α β : Type} {R : α → β → Prop} {l : List α} {l' : List β}

theorem forall₂_mem_left (h : List.Forall₂ R l l') {a : α} (ha : a ∈ l) : ∃ b ∈ l', R a b := by
  induction h with
  | nil => cases ha
  | @cons a' b' _ _ hab _ ih =>
    rcases List.mem_cons.mp ha with rfl | hmem
    · exact ⟨b', List.mem_cons_self, hab⟩
    · obtain ⟨b, hb, hr⟩ := ih hmem
      exact ⟨b, List.mem_cons_of_mem _ hb, hr⟩

theorem forall₂_mem_right (h : List.Forall₂ R l l') {b : β} (hb : b ∈ l') : ∃ a ∈ l, R a b :=
  forall₂_mem_left h.flip hb

end Related

namespace Pool

variable {ι ω Q Q' Op : Type} {Res : Op → Type} {A A' : Type}
variable (name : Q → Q') (word : Q → A' → A)

inductive SameClient : Client ω Q Op Res A → Client ω Q' Op Res A' → Prop
  | idle : SameClient .idle .idle
  | busy (q : Q) (past : List (ω × Event Op Res)) (rest : Prog Op Res A') :
      SameClient (.busy q past (word q <$> rest)) (.busy (name q) past rest)

inductive SameAction : Action ι ω Q Op Res A → Action ι ω Q' Op Res A' → Prop
  | start (i : ι) (q : Q) : SameAction (.start i q) (.start i (name q))
  | perform (i : ι) (q : Q) (e : Event Op Res) :
      SameAction (.perform i q e) (.perform i (name q) e)
  | finish (i : ι) (q : Q) (past : List (ω × Event Op Res)) (a : A') :
      SameAction (.finish i q past (word q a)) (.finish i (name q) past a)

structure SamePool (s : Pool ι ω Q Op Res A) (s' : Pool ι ω Q' Op Res A') : Prop where
  world : s'.world = s.world
  client : ∀ i, SameClient name word (s.client i) (s'.client i)

/-- The same transition in both pools. -/
structure SameMove (t : Transition (Pool ι ω Q Op Res A) (Action ι ω Q Op Res A))
    (t' : Transition (Pool ι ω Q' Op Res A') (Action ι ω Q' Op Res A')) : Prop where
  before : SamePool name word t.before t'.before
  label : SameAction name word t.label t'.label
  after : SamePool name word t.after t'.after

variable {name word}

theorem samePool_initial (w : ω) :
    SamePool name word (initial w : Pool ι ω Q Op Res A) (initial w : Pool ι ω Q' Op Res A') :=
  ⟨rfl, fun _ => .idle⟩

theorem SameClient.of_idle {c' : Client ω Q' Op Res A'}
    (h : SameClient name word (.idle : Client ω Q Op Res A) c') : c' = .idle := by
  cases h
  rfl

/-- A client about to perform a call is about to perform it in both pools. -/
theorem SameClient.of_call {c' : Client ω Q' Op Res A'} {q : Q} {past : List (ω × Event Op Res)}
    {op : Op} {next : Res op → Prog Op Res A}
    (h : SameClient name word (.busy q past (.call op next)) c') :
    ∃ next', next = (fun r => word q <$> next' r) ∧ c' = .busy (name q) past (.call op next') := by
  generalize hc : (Client.busy q past (.call op next) : Client ω Q Op Res A) = c at h
  cases h with
  | idle => cases hc
  | busy q past rest =>
    obtain ⟨rfl, rfl, hrest⟩ := Client.busy.inj hc
    cases rest with
    | done a => cases hrest
    | call op' next' =>
      obtain ⟨rfl, hnext⟩ := Prog.call.inj hrest
      exact ⟨next', eq_of_heq hnext, rfl⟩

theorem SameClient.of_done {c' : Client ω Q' Op Res A'} {q : Q} {past : List (ω × Event Op Res)}
    {a : A} (h : SameClient name word (.busy q past (.done a)) c') :
    ∃ a', a = word q a' ∧ c' = .busy (name q) past (.done a') := by
  generalize hc : (Client.busy q past (.done a) : Client ω Q Op Res A) = c at h
  cases h with
  | idle => cases hc
  | busy q past rest =>
    obtain ⟨rfl, rfl, hrest⟩ := Client.busy.inj hc
    cases rest with
    | done a' => exact ⟨a', Prog.done.inj hrest, rfl⟩
    | call op next => cases hrest

/-- The same, seen from the other pool. -/
theorem SameClient.of_call_right {c : Client ω Q Op Res A} {q' : Q'}
    {past : List (ω × Event Op Res)} {op : Op} {next : Res op → Prog Op Res A'}
    (h : SameClient name word c (.busy q' past (.call op next))) :
    ∃ q, q' = name q ∧ c = .busy q past (.call op fun r => word q <$> next r) := by
  cases h with
  | busy q past rest => exact ⟨q, rfl, rfl⟩

/-- A log that goes by the names of the requests is the same in both pools. -/
theorem same_log {κ α : Type} (commits : Q → Event Op Res → Option (κ × α))
    (commits' : Q' → Event Op Res → Option (κ × α))
    (hcommits : ∀ q e, commits q e = commits' (name q) e)
    {ts : List (Transition (Pool ι ω Q Op Res A) (Action ι ω Q Op Res A))}
    {ts' : List (Transition (Pool ι ω Q' Op Res A') (Action ι ω Q' Op Res A'))}
    (h : List.Forall₂ (SameMove name word) ts ts') : log commits ts = log commits' ts' := by
  induction h with
  | nil => rfl
  | @cons t t' _ _ hmove _ ih =>
    have hlabel : committed commits t.label = committed commits' t'.label := by
      obtain ⟨s, l, s₁⟩ := t
      obtain ⟨s', l', s₁'⟩ := t'
      cases hmove.label with
      | start i q | finish i q past a => rfl
      | perform i q e => exact congrArg (Option.map (Prod.mk i)) (hcommits q e)
    unfold log at ih ⊢
    rw [List.filterMap_cons, List.filterMap_cons, hlabel, ih]

variable [DecidableEq ι]

theorem SamePool.move {s : Pool ι ω Q Op Res A} {s' : Pool ι ω Q' Op Res A'}
    (h : SamePool name word s s') (i : ι) {c : Client ω Q Op Res A} {c' : Client ω Q' Op Res A'}
    (hc : SameClient name word c c') (w : ω) :
    SamePool name word (s.move i c w) (s'.move i c' w) := by
  refine ⟨rfl, fun j => ?_⟩
  by_cases hj : j = i
  · subst hj
    rw [move_client_self, move_client_self]
    exact hc
  · rw [move_client_ne _ _ _ hj, move_client_ne _ _ _ hj]
    exact h.client j

variable {program : Q → Prog Op Res A} {program' : Q' → Prog Op Res A'}
  {allow : ω → Event Op Res → ω → Prop} {offered : Q → Prop} {offered' : Q' → Prop}

/-- **Step for step** the pools do the same. -/
theorem same_step (hprogram : ∀ q, offered q → program q = word q <$> program' (name q))
    (hoffered : ∀ q, offered q → offered' (name q)) {s t : Pool ι ω Q Op Res A}
    {s' : Pool ι ω Q' Op Res A'} {l : Action ι ω Q Op Res A} (h : SamePool name word s s')
    (hs : Step program allow offered s l t) :
    ∃ l' t', Step program' allow offered' s' l' t' ∧ SameAction name word l l' ∧
      SamePool name word t t' := by
  cases hs with
  | @start i q hi hq =>
    have hidle := h.client i
    rw [hi] at hidle
    refine ⟨_, _, .start hidle.of_idle (hoffered q hq), .start i q, ?_⟩
    rw [hprogram q hq, h.world]
    exact h.move i (.busy q [] (program' (name q))) s.world
  | @perform i q past op next r w hi hw =>
    have hcall := h.client i
    rw [hi] at hcall
    obtain ⟨next', rfl, hi'⟩ := hcall.of_call
    rw [← h.world] at hw
    refine ⟨_, _, .perform hi' hw, .perform i q ⟨op, r⟩, ?_⟩
    rw [h.world]
    exact h.move i (.busy q (past ++ [(s.world, ⟨op, r⟩)]) (next' r)) w
  | @finish i q past a hi =>
    have hdone := h.client i
    rw [hi] at hdone
    obtain ⟨a', rfl, hi'⟩ := hdone.of_done
    refine ⟨_, _, .finish hi', .finish i q past a', ?_⟩
    rw [h.world]
    exact h.move i .idle s.world

/-- **Run for run** the pools do the same. -/
theorem same_run (hprogram : ∀ q, offered q → program q = word q <$> program' (name q))
    (hoffered : ∀ q, offered q → offered' (name q)) {w : ω}
    {ts : List (Transition (Pool ι ω Q Op Res A) (Action ι ω Q Op Res A))}
    {s : Pool ι ω Q Op Res A} (h : Run (Step program allow offered) (initial w) ts s) :
    ∃ ts' s', Run (Step program' allow offered') (initial w) ts' s' ∧
      List.Forall₂ (SameMove name word) ts ts' ∧ SamePool name word s s' := by
  induction h with
  | start => exact ⟨[], _, .start, .nil, samePool_initial w⟩
  | @snoc ts s t l hrun hs ih =>
    obtain ⟨ts', s', hrun', hmoves, hsame⟩ := ih
    obtain ⟨l', t', hs', hlabel, hafter⟩ := same_step hprogram hoffered hsame hs
    refine ⟨_, t', hrun'.snoc hs', ?_, hafter⟩
    exact List.rel_append hmoves (.cons ⟨hsame, hlabel, hafter⟩ .nil)

end Pool

end Quitsies.Interaction
