import Mathlib.Algebra.BigOperators.Group.Finset.Piecewise
import Mathlib.Data.Fintype.Card
import Quitsies.Interaction.Pool

/-!
# What clients still owe

Where a call is only ever made behind certain others, and always behind them, each of
those is owed the call until it is made. However many clients there are, what is owed
is what they are about to do.
-/

namespace Quitsies.Interaction

variable {ι ω Q Op : Type} {Res : Op → Type} {A : Type}

/-- The next call of a client, if it has one. -/
def Client.upcoming : Client ω Q Op Res A → Option Op
  | .idle => none
  | .busy _ _ (.call op _) => some op
  | .busy _ _ (.done _) => none

theorem Client.upcoming_busy {q : Q} {past : List (ω × Event Op Res)} {rest : Prog Op Res A}
    {op : Op} : (Client.busy q past rest).upcoming = some op ↔ rest.front = .inl op := by
  cases rest with
  | done a => simp [upcoming]
  | call op' next => simp [upcoming]

namespace Pool

section Tally

variable [Fintype ι]

/-- How many clients are doing such a thing. -/
def tally (s : Pool ι ω Q Op Res A) (p : Client ω Q Op Res A → Prop) [DecidablePred p] : Nat :=
  (Finset.univ.filter fun i => p (s.client i)).card

/-- Only the client that moves can change the number. -/
theorem tally_move [DecidableEq ι] (s : Pool ι ω Q Op Res A) (i : ι) (c : Client ω Q Op Res A)
    (w : ω) (p : Client ω Q Op Res A → Prop) [DecidablePred p] :
    (s.move i c w).tally p + (if p (s.client i) then 1 else 0) =
      s.tally p + (if p c then 1 else 0) := by
  let f (j : ι) : Nat := if p (s.client j) then 1 else 0
  let g (j : ι) : Nat := if p ((s.move i c w).client j) then 1 else 0
  have hf := Finset.add_sum_erase Finset.univ f (Finset.mem_univ i)
  have hg := Finset.add_sum_erase Finset.univ g (Finset.mem_univ i)
  have hrest : ∑ j ∈ Finset.univ.erase i, g j = ∑ j ∈ Finset.univ.erase i, f j := by
    refine Finset.sum_congr rfl fun j hj => ?_
    simp only [f, g, move_client_ne s c w (Finset.ne_of_mem_erase hj)]
  have hi : g i = if p c then 1 else 0 := by
    simp only [g, move_client_self]
  rw [tally, tally, Finset.card_filter, Finset.card_filter]
  show ∑ j, g j + f i = ∑ j, f j + _
  omega

theorem tally_eq_zero {s : Pool ι ω Q Op Res A} {p : Client ω Q Op Res A → Prop}
    [DecidablePred p] (h : ∀ i, ¬ p (s.client i)) : s.tally p = 0 := by
  rw [tally, Finset.card_eq_zero, Finset.filter_eq_empty_iff]
  exact fun i _ => h i

theorem tally_pos {s : Pool ι ω Q Op Res A} {p : Client ω Q Op Res A → Prop}
    [DecidablePred p] {i : ι} (h : p (s.client i)) : 0 < s.tally p :=
  Finset.card_pos.mpr ⟨i, Finset.mem_filter.mpr ⟨Finset.mem_univ i, h⟩⟩

end Tally

section Counting

variable [Fintype ι] [DecidableEq Op]

/-- How many clients are about to make the call. -/
def census (s : Pool ι ω Q Op Res A) (op : Op) : Nat :=
  (Finset.univ.filter fun i => (s.client i).upcoming = some op).card

theorem census_initial (w : ω) (op : Op) : (initial w : Pool ι ω Q Op Res A).census op = 0 := by
  simp [census, initial, Client.upcoming]

theorem census_move [DecidableEq ι] (s : Pool ι ω Q Op Res A) (i : ι) (c : Client ω Q Op Res A)
    (w : ω) (op : Op) :
    (s.move i c w).census op + (if (s.client i).upcoming = some op then 1 else 0) =
      s.census op + (if c.upcoming = some op then 1 else 0) :=
  tally_move s i c w fun c => c.upcoming = some op

end Counting

section Owing

variable [DecidableEq Op]

/-- A transition that owes the call, and one that makes it. -/
def owedBy (follow : Event Op Res → Option Op) (op : Op) : Action ι ω Q Op Res A → Nat
  | .perform _ _ e => if follow e = some op then 1 else 0
  | _ => 0

def paidBy (op : Op) : Action ι ω Q Op Res A → Nat
  | .perform _ _ e => if e.1 = op then 1 else 0
  | _ => 0

/-- The calls `later` are made behind the calls they follow, always, and nowhere else. -/
structure Follow (program : Q → Prog Op Res A) (follow : Event Op Res → Option Op)
    (later : Op → Prop) : Prop where
  front : ∀ q op, later op → (program q).front ≠ .inl op
  chained : ∀ q, (program q).Chained fun e front =>
    ∀ op, later op → (front = .inl op ↔ follow e = some op)

variable {program : Q → Prog Op Res A} {allow : ω → Event Op Res → ω → Prop} {offered : Q → Prop}
  {follow : Event Op Res → Option Op} {later : Op → Prop} {s s' : Pool ι ω Q Op Res A}
  {l : Action ι ω Q Op Res A}

/-- What is owed after a step was owed before or is owed for the step, but for what the
step pays. -/
theorem census_step [Fintype ι] [DecidableEq ι] (hfollow : Follow program follow later)
    (ht : OnTrack program offered s) (hs : Step program allow offered s l s') {op : Op}
    (hop : later op) : s.census op + owedBy follow op l = s'.census op + paidBy op l := by
  cases hs with
  | @start i q hi _ =>
    have hmove := census_move s i (.busy q [] (program q)) s.world op
    have hold : (s.client i).upcoming ≠ some op := by
      rw [hi]
      exact nofun
    have hnew : (Client.busy q [] (program q) : Client ω Q Op Res A).upcoming ≠ some op :=
      fun h => hfollow.front q op hop (Client.upcoming_busy.mp h)
    rw [if_neg hold, if_neg hnew] at hmove
    exact hmove.symm
  | @perform i q past op' next r w hi _ =>
    have hmove := census_move s i (.busy q (past ++ [(s.world, ⟨op', r⟩)]) (next r)) w op
    have hold : (s.client i).upcoming = some op ↔ op' = op := by
      rw [hi]
      exact Option.some_inj
    have hreach := (hfollow.chained q).reaches (ht i q past _ hi).2
    have hnew : (Client.busy q (past ++ [(s.world, ⟨op', r⟩)]) (next r) :
        Client ω Q Op Res A).upcoming = some op ↔ follow ⟨op', r⟩ = some op :=
      Client.upcoming_busy.trans ((hreach r).1 op hop)
    simp only [hold, hnew] at hmove
    exact hmove.symm
  | @finish i q past a hi =>
    have hmove := census_move s i .idle s.world op
    have hold : (s.client i).upcoming ≠ some op := by
      rw [hi]
      exact nofun
    rw [if_neg hold, if_neg nofun] at hmove
    exact hmove.symm

end Owing

end Pool

end Quitsies.Interaction
