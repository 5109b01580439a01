import Quitsies.Interaction.Relabel
import Quitsies.Service.Linearization
import Quitsies.Tcp.Session

/-!
# Connections and callers at a time

Handlers of any number of TCP connections and of `/key/{key}` run over one store, and
every connection has a session, which one of its handlers leaves and the next takes up.
What a handler is given and the program that it runs are parameters. A run is said by
the operations that its inputs come to.
-/

namespace Quitsies.Service

open Text Interaction Db Tcp Reference
open Pool (carried committed events Accounts)

/-! ## Requests that are operations by other names -/

section Named

variable {ι Q A : Type} [DecidableEq ι] {operation : Q → Operation} {outcome : Q → Reply → A}
  {program : Q → StoreProg A} {m : Contents}
  {ts : List (Transition (Pool ι World Q StoreCall StoreResult A)
    (Action ι World Q StoreCall StoreResult A))}
  {s : Pool ι World Q StoreCall StoreResult A}

/-- The requests do what their operations do. -/
theorem named_run (hprogram : ∀ q, program q = outcome q <$> (operation q).program)
    (h : Run (Pool.Step program FaultlessEffect fun _ => True) (Pool.initial ⟨m, false⟩) ts s) :
    ∃ (ts' : List (Move ι)) (s' : Clients ι),
      Runs FaultlessEffect (fun _ => True) m ts' s' ∧
        List.Forall₂ (Pool.SameMove operation outcome) ts ts' ∧
        Pool.SamePool operation outcome s s' :=
  Pool.same_run (fun q _ => hprogram q) (fun _ _ => trivial) h

/-- Where the calls of the operations find what they rely on, and only there, the
commands that the requests have carried out are a run of the map. -/
theorem named_legal_iff (hprogram : ∀ q, program q = outcome q <$> (operation q).program)
    (h : Run (Pool.Step program FaultlessEffect fun _ => True) (Pool.initial ⟨m, false⟩) ts s) :
    Legal step m ((Pool.log (fun q => (operation q).commits) ts).map Prod.snd) s.world.map ↔
      ∀ t ∈ ts, ∀ i q e, t.label = .perform i q e →
        TimelyCall (operation q) e.1 t.before.world.map := by
  obtain ⟨ts', s', hrun, hmoves, hsame⟩ := named_run hprogram h
  have hlog : Pool.log (fun q => (operation q).commits) ts = Pool.log Operation.commits ts' :=
    Pool.same_log _ Operation.commits (fun _ _ => rfl) hmoves
  rw [hlog, ← hsame.world, legal_iff_timely hrun]
  constructor
  · intro htimely t ht i q e hl
    obtain ⟨t', ht', hmove⟩ := forall₂_mem_left hmoves ht
    have hlabel := hmove.label
    rw [hl] at hlabel
    rw [← hmove.before.world]
    generalize hl' : t'.label = l' at hlabel
    cases hlabel with
    | perform => exact htimely t' ht' i _ e hl'
  · intro htimely t' ht' i q' e hl'
    obtain ⟨t, ht, hmove⟩ := forall₂_mem_right hmoves ht'
    have hlabel := hmove.label
    rw [hl'] at hlabel
    rw [hmove.before.world]
    generalize hl : t.label = l at hlabel
    cases hlabel with
    | perform => exact htimely t ht i _ e hl

/-- What the operation of a request was told when the request returned. -/
theorem told_operation (hprogram : ∀ q, program q = outcome q <$> (operation q).program)
    (h : Run (Pool.Step program FaultlessEffect fun _ => True) (Pool.initial ⟨m, false⟩) ts s)
    {t : Transition (Pool ι World Q StoreCall StoreResult A)
      (Action ι World Q StoreCall StoreResult A)} (ht : t ∈ ts)
    {i : ι} {q : Q} {past : List (World × StoreEvent)} {a : A}
    (hl : t.label = .finish i q past a) :
    ∃ a', a = outcome q a' ∧ (operation q).program.Performs (events past) a' ∧
      ((operation q).Parsed →
        (carried (fun q => (operation q).commits) q past).map Prod.fst =
            (operation q).command.atoms ∧
          a' = (operation q).assemble
            ((carried (fun q => (operation q).commits) q past).map Prod.snd)) := by
  obtain ⟨ts', s', hrun, hmoves, -⟩ := named_run hprogram h
  obtain ⟨t', ht', hmove⟩ := forall₂_mem_left hmoves ht
  have hlabel := hmove.label
  rw [hl] at hlabel
  generalize hl' : t'.label = l' at hlabel
  generalize hq : (Action.finish i q past a : Action ι World Q StoreCall StoreResult A) = l
    at hlabel
  cases hlabel with
  | start j q' | perform j q' e => cases hq
  | finish j q' past' a' =>
    cases hq
    obtain ⟨-, hperforms, -⟩ := Pool.finished_run hrun ht' hl'
    exact ⟨a', rfl, hperforms, fun hparsed => returned_carries hrun ht' hl' hparsed⟩

end Named

/-! ## What is served -/

inductive HttpCall where
  | get (key : Bytes)
  | put (key body : Bytes)
  | post (key body : Bytes)

def HttpCall.operation : HttpCall → Operation
  | get key => .httpGet key
  | put key body => .httpPut key body
  | post key body => .httpPost key body

theorem HttpCall.parsed (call : HttpCall) : call.operation.Parsed := by
  cases call <;> trivial

inductive Returned where
  | session (s : Session)
  | http (a : Reply)

abbrev Handlers (ι Q : Type) := Pool ι World Q StoreCall StoreResult Returned

abbrev Served (ι Q : Type) := Action ι World Q StoreCall StoreResult Returned

/-- The handlers that are running, and the session of every connection as its last
handler has left it. -/
structure Serving (ι Q : Type) where
  handlers : Handlers ι Q
  session : ι → Session

abbrev Instant (ι Q : Type) := Transition (Serving ι Q) (Served ι Q)

/-- Nothing is running, and every connection has just been accepted as `c`. -/
def Serving.initial {ι Q : Type} (m : Contents) (c : Connection) : Serving ι Q where
  handlers := Pool.initial ⟨m, false⟩
  session _ := .accepted c

/-- The steps of the handlers. -/
abbrev handling {ι Q : Type} (ts : List (Instant ι Q)) :
    List (Transition (Handlers ι Q) (Served ι Q)) := ts.map (Transition.map Serving.handlers)

variable {ι Q : Type} [DecidableEq ι]

/-- What a handler that returns leaves of the sessions. -/
def leave (session : ι → Session) : Served ι Q → ι → Session
  | .finish i _ _ (.session s) => Function.update session i s
  | _ => session

/-- A handler that does not return leaves a session as it is, as do those of others. -/
theorem leave_other {session : ι → Session} {l : Served ι Q} {j : ι}
    (h : ∀ q past a, l ≠ .finish j q past a) : leave session l j = session j := by
  cases l with
  | start i q | perform i q e => rfl
  | finish i q past a =>
    cases a with
    | http a => rfl
    | session s =>
      have hne : j ≠ i := fun he => h q past (.session s) (by rw [he])
      exact Function.update_of_ne hne ..

section Steps

variable (program : Q → StoreProg Returned) (within : Q → Option Session)

/-- A step of some handler. What is sent to a connection is handled in the session that
the connection has. -/
inductive Serving.Step : Serving ι Q → Served ι Q → Serving ι Q → Prop
  | step {s : Serving ι Q} {l : Served ι Q} {handlers : Handlers ι Q} :
      Pool.Step program FaultlessEffect (fun _ => True) s.handlers l handlers →
      (∀ i q c, l = .start i q → within q = some c → c = s.session i) →
      Step s l ⟨handlers, leave s.session l⟩

/-- The runs of the service. -/
abbrev Serves (m : Contents) (c : Connection) (ts : List (Instant ι Q)) (s : Serving ι Q) :
    Prop := Run (Serving.Step program within) (.initial m c) ts s

/-- Every busy connection handles what it was sent in the session that it has. -/
def InSession (s : Serving ι Q) : Prop :=
  ∀ i q c past rest, s.handlers.client i = .busy q past rest → within q = some c →
    c = s.session i

end Steps

variable {program : Q → StoreProg Returned} {within : Q → Option Session}

namespace Serving.Step

variable {s s' : Serving ι Q} {l : Served ι Q} {i : ι} {q : Q}

theorem handlers (h : Step program within s l s') :
    Pool.Step program FaultlessEffect (fun _ => True) s.handlers l s'.handlers := by
  cases h with
  | step hs _ => exact hs

theorem session (h : Step program within s l s') : s'.session = leave s.session l := by
  cases h
  rfl

theorem inSession (h : Step program within s l s') (hs : InSession within s) :
    InSession within s' := by
  intro j q c past rest hj hq
  cases h with
  | step hstep hcontinues =>
    rcases hstep.request_inv hj with rfl | ⟨⟨past', rest', hi⟩, hother⟩
    · exact hcontinues _ q c rfl hq
    · show c = leave s.session l j
      rw [leave_other hother]
      exact hs j q c past' rest' hi hq

theorem started (hi : s.handlers.client i = .idle)
    (hc : ∀ c, within q = some c → c = s.session i) :
    Step program within s (.start i q)
      ⟨s.handlers.move i (.busy q [] (program q)) s.handlers.world, s.session⟩ :=
  .step (.start hi trivial) (by rintro j q' c hl; cases hl; exact hc c)

theorem performed {past : List (World × StoreEvent)} {op : StoreCall}
    {next : StoreResult op → StoreProg Returned} {res : StoreResult op} {w : World}
    (hi : s.handlers.client i = .busy q past (.call op next))
    (hw : FaultlessEffect s.handlers.world ⟨op, res⟩ w) :
    Step program within s (.perform i q ⟨op, res⟩)
      ⟨s.handlers.move i (.busy q (past ++ [(s.handlers.world, ⟨op, res⟩)]) (next res)) w,
        s.session⟩ :=
  .step (.perform hi hw) (by rintro j q' c hl; cases hl)

theorem returned {past : List (World × StoreEvent)} {a : Returned}
    (hi : s.handlers.client i = .busy q past (.done a)) :
    Step program within s (.finish i q past a)
      ⟨s.handlers.move i .idle s.handlers.world, leave s.session (.finish i q past a)⟩ :=
  .step (.finish hi) (by rintro j q' c hl; cases hl)

end Serving.Step

/-! ## Runs -/

namespace Serves

variable {m : Contents} {c : Connection} {ts : List (Instant ι Q)} {s : Serving ι Q}

theorem handlers (h : Serves program within m c ts s) :
    Run (Pool.Step program FaultlessEffect fun _ => True) (Pool.initial ⟨m, false⟩)
      (handling ts) s.handlers :=
  Run.map Serving.handlers (fun _ _ _ => Serving.Step.handlers) h

theorem accounts {commits : Q → StoreEvent → Option (Command × Answer)}
    (h : Serves program within m c ts s) : Accounts commits (handling ts) s.handlers :=
  Pool.accounts_run h.handlers

theorem inSession (h : Serves program within m c ts s) : InSession within s := by
  refine h.invariant ?_ fun _ _ _ hs hstep => hstep.inSession hs
  intro i q c past rest hi
  cases hi

/-- A handler returns what it made of the session that its connection still has. -/
theorem finish_within (h : Serves program within m c ts s) {i : ι} {q : Q}
    {past : List (World × StoreEvent)} {a : Returned} {s' : Serving ι Q} {session : Session}
    (hs : Serving.Step program within s (.finish i q past a) s')
    (hq : within q = some session) : session = s.session i :=
  h.inSession i q session past _ hs.handlers.finish_inv.1 hq

variable {operation : Q → Operation} {outcome : Q → Reply → Returned}

/-- Where the calls of the operations find what they rely on, and only there, the
commands that the handlers have carried out are a run of the map. -/
theorem legal_iff (hprogram : ∀ q, program q = outcome q <$> (operation q).program)
    (h : Serves program within m c ts s) :
    Legal step m ((Pool.log (fun q => (operation q).commits) (handling ts)).map Prod.snd)
        s.handlers.world.map ↔
      ∀ t ∈ ts, ∀ i q e, t.label = .perform i q e →
        TimelyCall (operation q) e.1 t.before.handlers.world.map :=
  (named_legal_iff hprogram h.handlers).trans List.forall_mem_map

/-- What the operation of an input was told when its handler returned. -/
theorem told (hprogram : ∀ q, program q = outcome q <$> (operation q).program)
    (h : Serves program within m c ts s) {t : Instant ι Q} (ht : t ∈ ts) {i : ι} {q : Q}
    {past : List (World × StoreEvent)} {a : Returned} (hl : t.label = .finish i q past a) :
    ∃ a', a = outcome q a' ∧ (operation q).program.Performs (events past) a' ∧
      ((operation q).Parsed →
        (carried (fun q => (operation q).commits) q past).map Prod.fst =
            (operation q).command.atoms ∧
          a' = (operation q).assemble
            ((carried (fun q => (operation q).commits) q past).map Prod.snd)) := by
  have hl' : (t.map Serving.handlers).label = .finish i q past a := hl
  exact told_operation hprogram h.handlers (List.mem_map_of_mem ht) hl'

end Serves

end Quitsies.Service
