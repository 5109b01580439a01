import Mathlib.Data.List.Induction
import Quitsies.Interaction.Pool

/-!
# Linearization

A call of a request carries out at most one command of a sequential object. The
log of a run is the commands in the order of the calls that carried them out, each
with the client it was for and its answer. A run is linearized by its log where the
object, given the commands one after the other, gives the same answers. The log of
a run goes on where the log of an earlier part of it ends, so its order is the order
of time.
-/

namespace Quitsies.Interaction

/-! ## A sequential object -/

section Object

variable {μ κ α : Type} (step : μ → κ → α × μ)

/-- The commands one after the other: the answers, and the state they lead to. -/
def play : List κ → μ → List α × μ
  | [], m => ([], m)
  | c :: cs, m =>
    let (a, m) := step m c
    let (answers, m) := play cs m
    (a :: answers, m)

theorem play_append (cs cs' : List κ) (m : μ) :
    play step (cs ++ cs') m =
      ((play step cs m).1 ++ (play step cs' (play step cs m).2).1,
        (play step cs' (play step cs m).2).2) := by
  induction cs generalizing m with
  | nil => rfl
  | cons c cs ih => simp only [List.cons_append, play, ih]

theorem play_length (cs : List κ) (m : μ) : (play step cs m).1.length = cs.length := by
  induction cs generalizing m with
  | nil => rfl
  | cons c cs ih => simp only [play, List.length_cons, ih]

/-- From `m` the commands are answered as noted, and lead to `m'`. -/
def Legal (m : μ) (log : List (κ × α)) (m' : μ) : Prop :=
  play step (log.map Prod.fst) m = (log.map Prod.snd, m')

theorem legal_nil {m m' : μ} : Legal step m [] m' ↔ m = m' := by
  simp [Legal, play]

/-- The last command is carried out in the state that the others lead to. -/
theorem legal_snoc {m m' : μ} {log : List (κ × α)} {c : κ} {a : α} :
    Legal step m (log ++ [(c, a)]) m' ↔ ∃ m₁, Legal step m log m₁ ∧ step m₁ c = (a, m') := by
  have hlen := play_length step (log.map Prod.fst) m
  simp only [Legal, List.map_append, List.map_cons, List.map_nil, play_append, play]
  constructor
  · intro h
    obtain ⟨hanswers, hstate⟩ := Prod.mk.inj h
    obtain ⟨hold, hnew⟩ := List.append_inj hanswers (by simpa using hlen)
    refine ⟨(play step (log.map Prod.fst) m).2, Prod.ext hold rfl, ?_⟩
    exact Prod.ext (List.singleton_inj.mp hnew) hstate
  · rintro ⟨m₁, hlog, hstep⟩
    rw [hlog, hstep]

/-- What is noted was answered in some state. -/
theorem legal_mem {m m' : μ} {log : List (κ × α)} (h : Legal step m log m') {c : κ} {a : α}
    (hmem : (c, a) ∈ log) : ∃ m₁, (step m₁ c).1 = a := by
  induction log using List.reverseRecOn generalizing m' with
  | nil => cases hmem
  | append_singleton log entry ih =>
    obtain ⟨m₁, hlog, hstep⟩ := (legal_snoc step).mp h
    rcases List.mem_append.mp hmem with hold | hnew
    · exact ih hlog hold
    · obtain rfl := List.mem_singleton.mp hnew
      exact ⟨m₁, congrArg Prod.fst hstep⟩

/-- Where every transition is a command of the object or leaves it alone, the commands of
a run are legal. -/
theorem legal_run {σ Λ : Type} {move : σ → Λ → σ → Prop} {s₀ s : σ}
    {ts : List (Transition σ Λ)} (view : σ → μ) (emits : Transition σ Λ → Option (κ × α))
    (h : Run move s₀ ts s)
    (hquiet : ∀ t ∈ ts, emits t = none → view t.after = view t.before)
    (hemits : ∀ t ∈ ts, ∀ c a, emits t = some (c, a) →
      step (view t.before) c = (a, view t.after)) :
    Legal step (view s₀) (ts.filterMap emits) (view s) := by
  induction h with
  | start => exact (legal_nil step).mpr rfl
  | @snoc ts s s' l _ _ ih =>
    have hold := ih (fun t ht => hquiet t (List.mem_append_left _ ht))
      fun t ht => hemits t (List.mem_append_left _ ht)
    have hlast : (⟨s, l, s'⟩ : Transition σ Λ) ∈ ts ++ [⟨s, l, s'⟩] := by simp
    rw [List.filterMap_append]
    cases he : emits ⟨s, l, s'⟩ with
    | none =>
      rw [List.filterMap_cons_none he, List.filterMap_nil, List.append_nil,
        hquiet _ hlast he]
      exact hold
    | some entry =>
      rw [List.filterMap_cons_some he, List.filterMap_nil]
      exact (legal_snoc step).mpr ⟨_, hold, hemits _ hlast _ _ he⟩

end Object

/-! ## An object that is saved and loaded -/

/-- The commands of an object, and those that save it, load what was saved last, and lose
it. -/
inductive Saving (μ κ : Type) where
  | apply (c : κ)
  | save
  | load
  | lose (m : μ)

def savingStep {μ κ α : Type} (step : μ → κ → α × μ) :
    μ × Option μ → Saving μ κ → Option α × μ × Option μ
  | (m, saved), .apply c => (some (step m c).1, (step m c).2, saved)
  | (m, _), .save => (none, m, some m)
  | (m, saved), .load => (none, saved.getD m, saved)
  | (_, saved), .lose m => (none, m, saved)

namespace Pool

variable {ι ω Q Op : Type} {Res : Op → Type} {A μ κ α : Type}

/-! ## The log of a run -/

section Log

variable (commits : Q → Event Op Res → Option (κ × α))

/-- The command that a transition carries out, and for which client. -/
def committed : Action ι ω Q Op Res A → Option (ι × κ × α)
  | .start _ _ => none
  | .perform i q e => (commits q e).map (Prod.mk i)
  | .finish _ _ _ _ => none

def log (ts : List (Transition (Pool ι ω Q Op Res A) (Action ι ω Q Op Res A))) :
    List (ι × κ × α) :=
  ts.filterMap fun t => committed commits t.label

theorem log_append (ts ts' : List (Transition (Pool ι ω Q Op Res A) (Action ι ω Q Op Res A))) :
    log commits (ts ++ ts') = log commits ts ++ log commits ts' := List.filterMap_append

/-- The commands that the calls of a request have carried out. -/
def carried (q : Q) (past : List (ω × Event Op Res)) : List (κ × α) :=
  past.filterMap fun we => commits q we.2

theorem carried_events (q : Q) (past : List (ω × Event Op Res)) :
    carried commits q past = (events past).filterMap (commits q) := by
  rw [events, List.filterMap_map]
  rfl

/-- The commands that a client's request has carried out so far. -/
def underWay : Client ω Q Op Res A → List (κ × α)
  | .idle => []
  | .busy q past _ => carried commits q past

variable [DecidableEq ι]

/-- The commands in the log that are for client `i`. -/
def ofClient (i : ι) (entries : List (ι × κ × α)) : List (κ × α) :=
  entries.filterMap fun entry => if entry.1 = i then some entry.2 else none

/-- The commands of the request that a transition returns from, if it is of `i`. -/
def returnedTo (i : ι) : Action ι ω Q Op Res A → List (κ × α)
  | .start _ _ => []
  | .perform _ _ _ => []
  | .finish j q past _ => if j = i then carried commits q past else []

/-- At a point of a run the log holds, client by client and in order, the commands of
the requests that have returned and those of the request that is under way. -/
def Accounts (ts : List (Transition (Pool ι ω Q Op Res A) (Action ι ω Q Op Res A)))
    (s : Pool ι ω Q Op Res A) : Prop :=
  ∀ i, ofClient i (log commits ts) =
    ts.flatMap (fun t => returnedTo commits i t.label) ++ underWay commits (s.client i)

end Log

/-- The log of a run is a sequential run of the object that tells every client what
it was told, and at no time does it lack a command of a request that has returned. -/
structure Linearized [DecidableEq ι] (commits : Q → Event Op Res → Option (κ × α))
    (step : μ → κ → α × μ) (view : ω → μ) (commands : Q → List κ) (told : Q → List α → A → Prop)
    (m : μ) (ts : List (Transition (Pool ι ω Q Op Res A) (Action ι ω Q Op Res A)))
    (s : Pool ι ω Q Op Res A) : Prop where
  legal : Legal step m ((log commits ts).map Prod.snd) (view s.world)
  accounts : Accounts commits ts s
  always : ∀ ts₁ t ts₂, ts = ts₁ ++ t :: ts₂ → Accounts commits ts₁ t.before
  answers : ∀ t ∈ ts, ∀ i q past a, t.label = .finish i q past a →
    (carried commits q past).map Prod.fst = commands q ∧
      told q ((carried commits q past).map Prod.snd) a

/-! ## Over a run -/

section Runs

variable {program : Q → Prog Op Res A} {allow : ω → Event Op Res → ω → Prop} {offered : Q → Prop}
  {commits : Q → Event Op Res → Option (κ × α)} [DecidableEq ι] {w : ω}
  {ts : List (Transition (Pool ι ω Q Op Res A) (Action ι ω Q Op Res A))} {s : Pool ι ω Q Op Res A}

theorem accounts_step {s' : Pool ι ω Q Op Res A} {l : Action ι ω Q Op Res A}
    (h : Accounts commits ts s) (hs : Step program allow offered s l s') :
    Accounts commits (ts ++ [⟨s, l, s'⟩]) s' := by
  intro j
  have hold := h j
  have hlog : ofClient j (log commits (ts ++ [⟨s, l, s'⟩])) =
      ofClient j (log commits ts) ++ ofClient j (log commits [⟨s, l, s'⟩]) := by
    rw [log_append, ofClient, List.filterMap_append]
    rfl
  rw [hlog, hold, List.flatMap_append, List.append_assoc, List.append_assoc]
  congr 1
  cases hs with
  | @start i q hi hq =>
    by_cases he : j = i
    · subst he
      simp [hi, underWay, carried, log, committed, ofClient, returnedTo]
    · simp [move_client_ne _ _ _ he, log, committed, ofClient, returnedTo]
  | @perform i q past op next r w' hi hw =>
    by_cases he : j = i
    · subst he
      cases hc : commits q ⟨op, r⟩ <;>
        simp [hi, hc, underWay, carried, log, committed, ofClient, returnedTo]
    · have hij : ¬ i = j := fun hij => he hij.symm
      cases hc : commits q ⟨op, r⟩ <;>
        simp [move_client_ne _ _ _ he, hc, hij, log, committed, ofClient, returnedTo]
  | @finish i q past a hi =>
    by_cases he : j = i
    · subst he
      simp [hi, underWay, log, committed, ofClient, returnedTo]
    · have hij : ¬ i = j := fun hij => he hij.symm
      simp [move_client_ne _ _ _ he, hij, log, committed, ofClient, returnedTo]

theorem accounts_run (h : Run (Step program allow offered) (initial w) ts s) :
    Accounts commits ts s := by
  refine h.history (fun _ => True) (Accounts commits) ?_ ?_ fun _ _ => trivial
  · exact fun i => rfl
  · exact fun _ _ _ _ _ ih hs _ => accounts_step ih hs

/-- What a request that has returned has carried out is in the log. -/
theorem mem_log (h : Run (Step program allow offered) (initial w) ts s)
    {t : Transition (Pool ι ω Q Op Res A) (Action ι ω Q Op Res A)} (ht : t ∈ ts) {i : ι} {q : Q}
    {past : List (ω × Event Op Res)} {a : A} (hl : t.label = .finish i q past a) {entry : κ × α}
    (hentry : entry ∈ carried commits q past) : entry ∈ (log commits ts).map Prod.snd := by
  have hreturned : entry ∈ ts.flatMap fun t => returnedTo commits i t.label := by
    refine List.mem_flatMap.mpr ⟨t, ht, ?_⟩
    rw [hl, returnedTo, if_pos rfl]
    exact hentry
  have haccounts : entry ∈ ofClient i (log commits ts) := by
    rw [accounts_run h i]
    exact List.mem_append_left _ hreturned
  obtain ⟨ie, hie, he⟩ := List.mem_filterMap.mp haccounts
  refine List.mem_map.mpr ⟨ie, hie, ?_⟩
  split at he
  · exact Option.some.inj he
  · cases he

/-- Every reached point of a run has its log accounted for. -/
theorem accounts_always (h : Run (Step program allow offered) (initial w) ts s) :
    ∀ ts₁ t ts₂, ts = ts₁ ++ t :: ts₂ → Accounts commits ts₁ t.before := by
  rintro ts₁ t ts₂ rfl
  exact accounts_run h.split.1

/-- **When the log is legal.** Where a call that carries out no command leaves the
object alone, the log is legal exactly if every call that carries one out finds the
object in a state in which the command does what the call did. -/
theorem legal_iff (step : μ → κ → α × μ) (view : ω → μ)
    (ok : Transition (Pool ι ω Q Op Res A) (Action ι ω Q Op Res A) → Prop)
    (hquiet : ∀ ts s l s', Run (Step program allow offered) (initial w) ts s →
      Step program allow offered s l s' → committed commits l = none →
        view s'.world = view s.world ∧ ok ⟨s, l, s'⟩)
    (hcommit : ∀ ts s l s' i c a, Run (Step program allow offered) (initial w) ts s →
      Step program allow offered s l s' → committed commits l = some (i, c, a) →
        (ok ⟨s, l, s'⟩ → step (view s.world) c = (a, view s'.world)) ∧
          ((step (view s.world) c).1 = a → ok ⟨s, l, s'⟩))
    (h : Run (Step program allow offered) (initial w) ts s) :
    Legal step (view w) ((log commits ts).map Prod.snd) (view s.world) ↔ ∀ t ∈ ts, ok t := by
  suffices hboth : ((∀ t ∈ ts, ok t) →
        Legal step (view w) ((log commits ts).map Prod.snd) (view s.world)) ∧
      ∀ m', Legal step (view w) ((log commits ts).map Prod.snd) m' → ∀ t ∈ ts, ok t from
    ⟨hboth.2 _, hboth.1⟩
  induction h with
  | start => exact ⟨fun _ => rfl, fun _ _ => nofun⟩
  | @snoc ts s s' l hrun hs ih =>
    obtain ⟨hlegal, hok⟩ := ih
    have hsplit : (∀ t ∈ ts ++ [⟨s, l, s'⟩], ok t) ↔ (∀ t ∈ ts, ok t) ∧ ok ⟨s, l, s'⟩ := by
      simp [or_imp, forall_and]
    rw [hsplit, log_append, List.map_append]
    cases hl : committed commits l with
    | none =>
      obtain ⟨hview, hthis⟩ := hquiet ts s l s' hrun hs hl
      have hlog : log commits [(⟨s, l, s'⟩ :
          Transition (Pool ι ω Q Op Res A) (Action ι ω Q Op Res A))] = [] := by simp [log, hl]
      rw [hlog, List.map_nil, List.append_nil, hview]
      exact ⟨fun hall => hlegal hall.1, fun m' hm => ⟨hok m' hm, hthis⟩⟩
    | some entry =>
      obtain ⟨i, c, a⟩ := entry
      obtain ⟨hstep, hanswer⟩ := hcommit ts s l s' i c a hrun hs hl
      have hlog : log commits [(⟨s, l, s'⟩ :
          Transition (Pool ι ω Q Op Res A) (Action ι ω Q Op Res A))] = [(i, c, a)] := by
        simp [log, hl]
      rw [hlog, List.map_singleton]
      refine ⟨fun hall => (legal_snoc step).mpr ⟨_, hlegal hall.1, hstep hall.2⟩, ?_⟩
      intro m' hm
      obtain ⟨m₁, hbefore, hlast⟩ := (legal_snoc step).mp hm
      have hall := hok m₁ hbefore
      -- the commands so far lead to one state only, which is the one the call found
      have hstate := congrArg Prod.snd (hbefore.symm.trans (hlegal hall))
      obtain rfl : m₁ = view s.world := hstate
      exact ⟨hall, hanswer (congrArg Prod.fst hlast)⟩

end Runs

end Pool

end Quitsies.Interaction
