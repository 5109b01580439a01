import Mathlib.Algebra.GroupWithZero.Nat
import Mathlib.Algebra.Order.BigOperators.Group.Finset
import Quitsies.Interaction.Pool

/-!
# Counting the calls of requests

A call is performed once. So however many clients there are, the calls of a kind
that returned requests have made are at most the calls of that kind in the run:
the calls of requests still in flight make up the difference.
-/

namespace Quitsies.Interaction

namespace Pool

variable {ι ω Q Op : Type} {Res : Op → Type} {A : Type}

section Counts

variable (P : Q → Event Op Res → Bool)

/-- The calls of the kind in what a request has done so far. -/
def madeBy (q : Q) (past : List (ω × Event Op Res)) : Nat := past.countP fun we => P q we.2

/-- The calls of the kind that one transition performs. -/
def performedBy : Action ι ω Q Op Res A → Nat
  | .start _ _ => 0
  | .perform _ q e => if P q e then 1 else 0
  | .finish _ _ _ _ => 0

/-- The calls of the kind that a transition returns with. -/
def returnedBy : Action ι ω Q Op Res A → Nat
  | .start _ _ => 0
  | .perform _ _ _ => 0
  | .finish _ q past _ => madeBy P q past

def inFlight : Client ω Q Op Res A → Nat
  | .idle => 0
  | .busy q past _ => madeBy P q past

variable (ts : List (Transition (Pool ι ω Q Op Res A) (Action ι ω Q Op Res A)))

def performed : Nat := (ts.map fun t => performedBy P t.label).sum

def returned : Nat := (ts.map fun t => returnedBy P t.label).sum

end Counts

theorem performedBy_le_one (P : Q → Event Op Res → Bool) (l : Action ι ω Q Op Res A) :
    performedBy P l ≤ 1 := by
  cases l with
  | start i q => exact Nat.zero_le 1
  | finish i q past a => exact Nat.zero_le 1
  | perform i q e =>
    show (if P q e then 1 else 0) ≤ 1
    split <;> omega

/-- One client's share of a sum over clients. -/
theorem sum_share [DecidableEq ι] {f g : ι → Nat} {i : ι} (h : ∀ j, j ≠ i → g j = f j)
    (F : Finset ι) : ∑ j ∈ F, g j + f i ≤ ∑ j ∈ insert i F, f j + g i := by
  have hi : i ∈ insert i F := Finset.mem_insert_self i F
  have hf := Finset.add_sum_erase (insert i F) f hi
  have hg := Finset.add_sum_erase (insert i F) g hi
  have hrest : ∑ j ∈ (insert i F).erase i, g j = ∑ j ∈ (insert i F).erase i, f j :=
    Finset.sum_congr rfl fun j hj => h j (Finset.ne_of_mem_erase hj)
  have hle : ∑ j ∈ F, g j ≤ ∑ j ∈ insert i F, g j :=
    Finset.sum_le_sum_of_subset (Finset.subset_insert i F)
  omega

/-- Returns that each made a call of the kind are at most the calls returned with. -/
theorem count_le_returned {P : Q → Event Op Res → Bool} {answers : Action ι ω Q Op Res A → Bool}
    {ts : List (Transition (Pool ι ω Q Op Res A) (Action ι ω Q Op Res A))}
    (h : ∀ t ∈ ts, answers t.label = true → 1 ≤ returnedBy P t.label) :
    (ts.countP fun t => answers t.label) ≤ returned P ts := by
  unfold returned
  induction ts with
  | nil => exact Nat.le_refl 0
  | cons t ts ih =>
    have hrest := ih fun u hu => h u (List.mem_cons_of_mem t hu)
    have ht := h t List.mem_cons_self
    rw [List.countP_cons, List.map_cons, List.sum_cons]
    split
    · next hanswer =>
      have hpos := ht hanswer
      omega
    · omega

variable {program : Q → Prog Op Res A} {allow : ω → Event Op Res → ω → Prop} {offered : Q → Prop}

/-- A step moves no calls from nowhere: what the client has made afterwards, or
returned with, it had made before or performs now. -/
theorem ledger_step [DecidableEq ι] (P : Q → Event Op Res → Bool) {s s' : Pool ι ω Q Op Res A}
    {l : Action ι ω Q Op Res A} (h : Step program allow offered s l s') :
    ∃ i, (∀ j, j ≠ i → s'.client j = s.client j) ∧
      returnedBy P l + inFlight P (s'.client i) ≤ inFlight P (s.client i) + performedBy P l := by
  cases h with
  | @start i q hi hq =>
    refine ⟨i, fun j hj => move_client_ne _ _ _ hj, ?_⟩
    rw [move_client_self]
    exact Nat.zero_le _
  | @perform i q past op next r w hi hw =>
    refine ⟨i, fun j hj => move_client_ne _ _ _ hj, ?_⟩
    rw [move_client_self, hi]
    simp only [returnedBy, inFlight, performedBy, madeBy, List.countP_append,
      List.countP_singleton]
    omega
  | @finish i q past a hi =>
    refine ⟨i, fun j hj => move_client_ne _ _ _ hj, ?_⟩
    rw [move_client_self, hi]
    exact Nat.le_refl _

theorem ledger_run [DecidableEq ι] (P : Q → Event Op Res → Bool) {w : ω}
    {ts : List (Transition (Pool ι ω Q Op Res A) (Action ι ω Q Op Res A))}
    {s : Pool ι ω Q Op Res A} (h : Run (Step program allow offered) (initial w) ts s) :
    ∀ F : Finset ι, returned P ts + ∑ i ∈ F, inFlight P (s.client i) ≤ performed P ts := by
  refine h.history (fun _ => True)
    (fun ts s => ∀ F : Finset ι,
      returned P ts + ∑ i ∈ F, inFlight P (s.client i) ≤ performed P ts)
    ?_ ?_ fun _ _ => trivial
  · intro F
    simp [returned, performed, initial, inFlight]
  · intro ts s l s' _ ih hs _ F
    obtain ⟨i, hother, hself⟩ := ledger_step P hs
    have hshare := sum_share (f := fun j => inFlight P (s.client j))
      (g := fun j => inFlight P (s'.client j)) (i := i)
      (fun j hj => by simp only [hother j hj]) F
    have hold := ih (insert i F)
    have hreturned : returned P (ts ++ [⟨s, l, s'⟩]) = returned P ts + returnedBy P l := by
      simp [returned]
    have hperformed : performed P (ts ++ [⟨s, l, s'⟩]) = performed P ts + performedBy P l := by
      simp [performed]
    omega

/-- **The ledger.** Returned requests made at most the calls that were performed. -/
theorem returned_le_performed [DecidableEq ι] (P : Q → Event Op Res → Bool) {w : ω}
    {ts : List (Transition (Pool ι ω Q Op Res A) (Action ι ω Q Op Res A))}
    {s : Pool ι ω Q Op Res A} (h : Run (Step program allow offered) (initial w) ts s) :
    returned P ts ≤ performed P ts := by
  have hledger := ledger_run P h ∅
  rwa [Finset.sum_empty] at hledger

end Pool

end Quitsies.Interaction
