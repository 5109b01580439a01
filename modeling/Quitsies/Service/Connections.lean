import Quitsies.Service.Conversation
import Quitsies.Service.Serving

/-!
# Many connections, one store

Any number of TCP connections and callers of `/key/{key}` are served at a time. A
connection that waits is sent a request in reads of any size that end with it; the
store calls of its handlers come in between those of all the others. What the clients
read off the bytes they are sent, and what the HTTP callers are told, is what one map
answers in one order.
-/

namespace Quitsies.Service

open Text Interaction Db Tcp Reference
open Pool (carried committed events Accounts)

/-! ## What is served -/

/-- A session that waits for a request. -/
structure Waiting (n : Nat) where
  session : Session
  ready : session.Ready true n

/-- A request whose reads stay below the byte limit and end with it. -/
structure Fitting (n : Nat) extends Sent where
  fits : Fits n request [] reads

/-- The reads of a request on a connection, or a call of the web server. -/
inductive Arrival (n : Nat) where
  | sent (c : Waiting n) (d : Fitting n)
  | http (call : HttpCall)

namespace Arrival

variable {n : Nat}

def operation : Arrival n → Operation
  | sent _ d => .tcp (d.request.parsed true n)
  | http call => call.operation

def program : Arrival n → StoreProg Returned
  | sent c d => Returned.session <$> c.session.serve d.reads
  | http call => Returned.http <$> call.operation.program

/-- The session that a request is sent to. -/
def within : Arrival n → Option Session
  | sent c _ => some c.session
  | http _ => none

def commits (q : Arrival n) (e : StoreEvent) : Option (Command × Answer) := q.operation.commits e

/-- The session as the last read of the request finds it. -/
noncomputable def before (c : Waiting n) (d : Fitting n) : Session :=
  Classical.choose (serve_sent c.ready d.toSent d.fits)

theorem before_spec (c : Waiting n) (d : Fitting n) :
    Since c.session (before c d) ∧
      c.session.serve d.reads =
        (before c d).settle <$> prepareResponse (d.request.parsed true n) :=
  Classical.choose_spec (serve_sent c.ready d.toSent d.fits)

/-- What becomes of an arrival whose operation is told `a`. -/
noncomputable def outcome : Arrival n → Reply → Returned
  | sent c d, a => .session ((before c d).settle ((d.request.parsed true n).answered a.line))
  | http _, a => .http a

/-- An arrival is its operation, whatever else its handlers do. -/
theorem program_eq (q : Arrival n) : q.program = q.outcome <$> q.operation.program := by
  cases q with
  | http call => rfl
  | sent c d =>
    obtain ⟨-, hserve⟩ := before_spec c d
    have hprogram : (Arrival.sent c d).operation.program =
        Reply.tcp <$> prepareResponse (d.request.parsed true n) := rfl
    rw [program, hserve, hprogram]
    simp only [← bind_pure_comp, Prog.bind_assoc]
    refine (prepareResponse_returns _).bind_congr ?_
    intro r hr
    obtain ⟨response, rfl⟩ := hr
    rfl

/-- The runs in which connections are sent such requests. -/
abbrev Serves {ι : Type} [DecidableEq ι] (m : Contents) (command : CommandType) (r w : Int)
    (ts : List (Instant ι (Arrival n))) (s : Serving ι (Arrival n)) : Prop :=
  Service.Serves program within m ⟨.fresh true n command, r, w⟩ ts s

end Arrival

/-! ## Who comes between -/

variable {ι : Type} {n : Nat}

/-- Client `j` runs an `ADD` of `k` that has found nothing and puts next. -/
def AboutToAdd (s : Handlers ι (Arrival n)) (j : ι) (k : Bytes) : Prop :=
  ∃ q past value next, s.client j = .busy q past (.call (.put k value) next) ∧
    q.operation.AddOf k value

def AboutToRemove (s : Handlers ι (Arrival n)) (j : ι) (k : Bytes) : Prop :=
  ∃ q past next, s.client j = .busy q past (.call (.del k) next)

/-- No `SET` or HTTP put comes between the `get` and the `put` of an `ADD` of its key,
and no `del` between the `get` and the `del` of another `DELETE` of its key. -/
structure Apart (t : Instant ι (Arrival n)) : Prop where
  add : ∀ i q e k value, t.label = .perform i q e → e.1 = .put k value →
    q.operation.PutOf k value → ∀ j, ¬ AboutToAdd t.before.handlers j k
  delete : ∀ i q e k, t.label = .perform i q e → e.1 = .del k →
    ∀ j, j ≠ i → ¬ AboutToRemove t.before.handlers j k

/-! ## The operations behind it -/

abbrev SameAsMove (t : Transition (Handlers ι (Arrival n)) (Served ι (Arrival n)))
    (t' : Move ι) : Prop := Pool.SameMove Arrival.operation Arrival.outcome t t'

section Operations

variable [DecidableEq ι] {m : Contents} {command : CommandType} {r w : Int}
  {ts : List (Instant ι (Arrival n))} {s : Serving ι (Arrival n)}

/-- The handlers do what their operations do. -/
theorem operations_run (h : Arrival.Serves m command r w ts s) :
    ∃ (ts' : List (Move ι)) (s' : Clients ι),
      Runs FaultlessEffect (fun _ => True) m ts' s' ∧
        List.Forall₂ SameAsMove (handling ts) ts' ∧
        Pool.SamePool Arrival.operation Arrival.outcome s.handlers s' :=
  named_run Arrival.program_eq h.handlers

omit [DecidableEq ι] in
/-- What keeps the handlers apart keeps their operations apart. -/
theorem Apart.operations {t : Instant ι (Arrival n)} {t' : Move ι} (h : Apart t)
    (hmove : SameAsMove (t.map Serving.handlers) t') : KeepsOut t' ∧ DeletesApart t' := by
  have hcaller {j : ι} {q' : Operation} {past : List (World × StoreEvent)} {c : StoreCall}
      {next : StoreResult c → StoreProg Reply}
      (hj : t'.before.client j = .busy q' past (.call c next)) :
      ∃ q next', q' = Arrival.operation q ∧
        t.before.handlers.client j = .busy q past (.call c next') := by
    have hsame := hmove.before.client j
    rw [hj] at hsame
    obtain ⟨q, hq, hc⟩ := hsame.of_call_right
    exact ⟨q, _, hq, hc⟩
  have hperform {i : ι} {q' : Operation} {e : StoreEvent} (hl : t'.label = .perform i q' e) :
      ∃ q, q' = Arrival.operation q ∧ t.label = .perform i q e := by
    have hlabel := hmove.label
    rw [hl] at hlabel
    change Pool.SameAction _ _ t.label _ at hlabel
    generalize t.label = l at hlabel
    cases hlabel with
    | perform i q e => exact ⟨q, rfl, rfl⟩
  constructor
  · intro i q' e k value hl he hput j hj
    obtain ⟨q, rfl, hl'⟩ := hperform hl
    obtain ⟨qj, past, v, next, hclient, hadd⟩ := hj
    obtain ⟨qj, next', rfl, hclient'⟩ := hcaller hclient
    exact h.add i q e k value hl' he hput j ⟨qj, past, v, next', hclient', hadd⟩
  · intro i q' e k hl he j hne hj
    obtain ⟨q, rfl, hl'⟩ := hperform hl
    obtain ⟨qj, past, next, hclient⟩ := hj
    obtain ⟨qj, next', rfl, hclient'⟩ := hcaller hclient
    exact h.delete i q e k hl' he j hne ⟨qj, past, next', hclient'⟩

/-- The commands that the handlers have carried out are a run of the map. -/
theorem serves_legal (h : Arrival.Serves m command r w ts s) (hapart : ∀ t ∈ ts, Apart t) :
    Legal step m ((Pool.log Arrival.commits (handling ts)).map Prod.snd)
      s.handlers.world.map := by
  obtain ⟨ts', s', hrun, hmoves, hsame⟩ := operations_run h
  have hoperations : ∀ t' ∈ ts', KeepsOut t' ∧ DeletesApart t' := by
    intro t' ht'
    obtain ⟨u, hu, hmove⟩ := forall₂_mem_right hmoves ht'
    obtain ⟨t, ht, rfl⟩ := List.mem_map.mp hu
    exact (hapart t ht).operations hmove
  have hlegal := (legal_iff_timely hrun).mpr
    (timely_of_apart hrun (fun t' ht' => (hoperations t' ht').1)
      fun t' ht' => (hoperations t' ht').2)
  have hlog : Pool.log Arrival.commits (handling ts) = Pool.log Operation.commits ts' :=
    Pool.same_log Arrival.commits Operation.commits (fun _ _ => rfl) hmoves
  rw [hlog, ← hsame.world]
  exact hlegal

end Operations

/-! ## What a connection has said -/

/-- The answer to a request, from those to the commands its handler carried out. -/
def answerOf (w : WellFormed) (entries : List (Command × Answer)) : Option Answer :=
  (asks w).map fun c => c.gather (entries.map Prod.snd)

/-- The request that a handler returns from, if it is of connection `i`, and its answer. -/
def exchange [DecidableEq ι] (i : ι) : Served ι (Arrival n) → Option (WellFormed × Option Answer)
  | .finish j (.sent c d) past _ =>
    if j = i then some (d.request, answerOf d.request (carried Arrival.commits (.sent c d) past))
    else none
  | _ => none

def exchanges [DecidableEq ι] (i : ι) (ts : List (Instant ι (Arrival n))) :
    List (WellFormed × Option Answer) := ts.filterMap fun t => exchange i t.label

/-- The response to a request that wants one. -/
def printed (pair : WellFormed × Option Answer) : List Bytes :=
  if pair.1.noreply then [] else [responseLine pair.2]

def told (pair : WellFormed × Option Answer) : Option (Option Answer) :=
  if pair.1.noreply then none else some pair.2

/-- What is printed for requests and their answers is read as the answers. -/
theorem readResponses_printed {pairs : List (WellFormed × Option Answer)}
    (h : ∀ pair ∈ pairs, Answers pair.1 pair.2) :
    Client.readResponses (pairs.map Prod.fst) (pairs.flatMap printed).flatten =
      some (pairs.filterMap told, []) := by
  induction pairs with
  | nil => rfl
  | cons pair pairs ih =>
    obtain ⟨hpair, hpairs⟩ := List.forall_mem_cons.mp h
    have hrest := ih hpairs
    cases hn : pair.1.noreply with
    | true =>
      simp only [List.map_cons, List.flatMap_cons, printed, told, List.filterMap_cons,
        Client.readResponses, hn, ↓reduceIte, List.nil_append] at hrest ⊢
      exact hrest
    | false =>
      have hread := Client.readResponse_of_answers hpair (pairs.flatMap printed).flatten
      simp only [List.map_cons, List.flatMap_cons, printed, told, List.filterMap_cons,
        Client.readResponses, hn, Bool.false_eq_true, ↓reduceIte, List.cons_append,
        List.nil_append, List.flatten_cons] at hrest hread ⊢
      simp only [hread, hrest, Option.map_some]

section Answers

/-- Answers of the map, put together, are an answer that the request can get. -/
theorem answerOf_answers {w : WellFormed} {entries : List (Command × Answer)}
    (hcommands : ∀ c, asks w = some c → entries.map Prod.fst = c.atoms)
    (hanswers : ∀ c a, (c, a) ∈ entries → ∃ m, (step m c).1 = a) :
    Answers w (answerOf w entries) := by
  have hone {c : Command} (hasks : asks w = some c) (hatoms : c.atoms = [c])
      (hgather : ∀ a, c.gather [a] = a) : Answers w (answerOf w entries) := by
    have hentries := hcommands c hasks
    rw [hatoms] at hentries
    obtain ⟨⟨c', a⟩, rfl, rfl⟩ := List.map_eq_singleton_iff.mp hentries
    obtain ⟨m, hm⟩ := hanswers c' a List.mem_cons_self
    have hconsult : (consult w m).1 = answerOf w [(c', a)] := by
      simp only [consult, answerOf, hasks, Option.map_some, List.map_cons, List.map_nil, hgather,
        ← hm]
    rw [← hconsult]
    exact consult_answers w m
  cases w with
  | storage kind key flags exptime noreply payload =>
    cases kind with
    | set => exact hone rfl rfl fun _ => rfl
    | add => exact hone rfl rfl fun _ => rfl
  | delete key noreply => exact hone rfl rfl fun _ => rfl
  | ping => rfl
  | retrieval kind first more =>
    refine ⟨_, rfl, fun kv hkv => ?_⟩
    obtain ⟨⟨key, a⟩, hpair, hbinding⟩ := List.mem_filterMap.mp hkv
    obtain ⟨k, -, hk⟩ := List.mem_map.mp (List.of_mem_zip hpair).1
    have hkey : kv.1 = key := by
      cases a with
      | value found =>
        cases found with
        | some v => cases hbinding; rfl
        | none => cases hbinding
      | bound | refused | removed | absent | bindings found => cases hbinding
    rw [hkey, ← hk]
    exact k.plain

end Answers

/-! ## The service over a run -/

section Runs

variable [DecidableEq ι] {m : Contents} {command : CommandType} {r w : Int}
  {ts : List (Instant ι (Arrival n))} {s : Serving ι (Arrival n)}

/-- The commands that an arrival has carried out when its handler returns. -/
def Arrival.commands : Arrival n → List Command
  | .sent _ d => ((asks d.request).map Command.atoms).getD []
  | .http call => call.operation.command.atoms

theorem asks_ping {w : WellFormed} (h : asks w = none) : w = .ping := by
  cases w with
  | ping => rfl
  | storage kind key flags exptime noreply payload => cases kind <;> cases h
  | delete key noreply | retrieval kind first more => cases h

/-- A handler that has returned has carried out what was asked for, and has answered it. -/
theorem sent_returned (h : Arrival.Serves m command r w ts s) {t : Instant ι (Arrival n)}
    (ht : t ∈ ts) {i : ι} {c : Waiting n} {d : Fitting n}
    {past : List (World × StoreEvent)} {a : Returned}
    (hl : t.label = .finish i (.sent c d) past a) :
    let entries := carried Arrival.commits (.sent c d) past
    entries.map Prod.fst = (Arrival.sent c d).commands ∧
      ∃ s', a = .session s' ∧ (Arrival.before c d).Answered s'
        ((d.request.parsed true n).answered (responseLine (answerOf d.request entries))) := by
  intro entries
  obtain ⟨a', rfl, hperforms, htold⟩ := h.told Arrival.program_eq ht hl
  suffices hreply : entries.map Prod.fst = (Arrival.sent c d).commands ∧
      a'.line = responseLine (answerOf d.request entries) by
    refine ⟨hreply.1, _, rfl, ?_⟩
    rw [← hreply.2]
    exact (Arrival.before c d).settle_finished rfl
  cases hasks : asks d.request with
  | some cmd =>
    obtain ⟨hparsed, hcommand⟩ := asks_command hasks n
    obtain ⟨hcommands, ha'⟩ := htold hparsed
    constructor
    · rw [Arrival.commands, hasks, ← hcommand]
      exact hcommands
    · have hassemble : a' = .tcp ((d.request.parsed true n).answered
          (cmd.gather (entries.map Prod.snd)).line) := by
        rw [ha', ← hcommand]
        rfl
      rw [hassemble, answerOf, hasks]
      rfl
  | none =>
    have hping := asks_ping hasks
    have hprogram : (Arrival.sent c d).operation.program =
        .done (.tcp ((d.request.parsed true n).answered pong)) := by
      rw [Arrival.operation, Operation.program, prepareResponse_ping (by rw [hping]; rfl)]
      rfl
    rw [hprogram] at hperforms
    obtain ⟨hevents, rfl⟩ := Prog.performs_done.mp hperforms
    have hentries : entries = [] := by
      rw [show entries = _ from Pool.carried_events .., hevents]
      rfl
    refine ⟨by rw [hentries, Arrival.commands, hasks]; rfl, ?_⟩
    rw [answerOf, hasks]
    rfl

theorem exchange_eq_some {i : ι} {l : Served ι (Arrival n)}
    {pair : WellFormed × Option Answer} (h : exchange i l = some pair) :
    ∃ j c d past a, l = .finish j (.sent c d) past a ∧
      pair = (d.request, answerOf d.request (carried Arrival.commits (.sent c d) past)) := by
  cases l with
  | start j q | perform j q e => cases h
  | finish j q past a =>
    cases q with
    | http call => cases h
    | sent c d =>
      simp only [exchange] at h
      split at h
      · cases h
        exact ⟨j, c, d, past, a, rfl, rfl⟩
      · cases h

/-- What one step adds to what a connection has written. -/
theorem written_step (h : Arrival.Serves m command r w ts s) {l : Served ι (Arrival n)}
    {s' : Serving ι (Arrival n)} (hs : Serving.Step Arrival.program Arrival.within s l s') (j : ι) :
    (s'.session j).written = (s.session j).written ++ (exchange j l).toList.flatMap printed := by
  have hmem : (⟨s, l, s'⟩ : Instant ι (Arrival n)) ∈ ts ++ [⟨s, l, s'⟩] := by simp
  have hrun : Arrival.Serves m command r w _ s' := h.snoc hs
  cases l with
  | start i q | perform i q e =>
    cases hs
    exact (List.append_nil _).symm
  | finish i q past a =>
    cases q with
    | http call =>
      obtain ⟨a', rfl, -⟩ := hrun.told Arrival.program_eq hmem rfl
      cases hs
      exact (List.append_nil _).symm
    | sent c d =>
      obtain ⟨-, s₁, rfl, hanswered⟩ := sent_returned hrun hmem rfl
      obtain ⟨hsince, -⟩ := Arrival.before_spec c d
      have hsession : s'.session = Function.update s.session i s₁ := hs.session
      rw [hsession]
      by_cases he : j = i
      · subst he
        have hc : c.session = s.session j := h.finish_within hs rfl
        rw [Function.update_self, hanswered.written, hsince.written, hc]
        simp only [exchange, ↓reduceIte, Option.toList_some, List.flatMap_cons, List.flatMap_nil,
          List.append_nil, printed]
        rfl
      · have hij : ¬ i = j := fun hij => he hij.symm
        rw [Function.update_of_ne he]
        simp only [exchange, if_neg hij, Option.toList_none, List.flatMap_nil, List.append_nil]

/-- What a session has written are the responses to its requests. -/
theorem written_run (h : Arrival.Serves m command r w ts s) (i : ι) :
    (s.session i).written = (exchanges i ts).flatMap printed := by
  induction h with
  | start => exact Session.written_accepted _
  | @snoc ts s s' l hrun hs ih =>
    have hexchanges : exchanges i (ts ++ [(⟨s, l, s'⟩ : Instant ι (Arrival n))]) =
        exchanges i ts ++ (exchange i l).toList := by
      rw [exchanges, List.filterMap_append]
      cases hx : exchange i l <;> simp [exchanges, hx]
    rw [written_step hrun hs i, ih, hexchanges, List.flatMap_append]

/-- What a run of the service shows of one map: the commands that the handlers carry
out are a run of it, every request has carried out what it asks by the time its handler
returns, and everybody is told what the map answers. -/
structure OneMap (m : Contents) (ts : List (Instant ι (Arrival n)))
    (s : Serving ι (Arrival n)) : Prop where
  legal : Legal step m ((Pool.log Arrival.commits (handling ts)).map Prod.snd)
    s.handlers.world.map
  always : ∀ ts₁ t ts₂, ts = ts₁ ++ t :: ts₂ →
    Accounts Arrival.commits (handling ts₁) t.before.handlers
  commands : ∀ t ∈ ts, ∀ i q past a, t.label = .finish i q past a →
    (carried Arrival.commits q past).map Prod.fst = q.commands
  http : ∀ t ∈ ts, ∀ i call past a, t.label = .finish i (.http call) past a →
    a = .http (call.operation.assemble
      ((carried Arrival.commits (Arrival.http call : Arrival n) past).map Prod.snd))
  read : ∀ i, Client.readResponses ((exchanges i ts).map Prod.fst) (s.session i).written.flatten =
    some ((exchanges i ts).filterMap told, [])

/-- **Any number of connections act as one map.** Whatever requests they are sent, in
whatever reads, and however their handlers interleave with each other and with those
of the web server, as long as no other writer comes between what an `ADD` or a `DELETE`
finds and what it writes. -/
theorem connections_act_as_one (h : Arrival.Serves m command r w ts s)
    (hapart : ∀ t ∈ ts, Apart t) : OneMap m ts s := by
  have hlegal := serves_legal h hapart
  have hcommands : ∀ t ∈ ts, ∀ i q past a, t.label = .finish i q past a →
      (carried Arrival.commits q past).map Prod.fst = q.commands := by
    intro t ht i q past a hl
    cases q with
    | sent c d => exact (sent_returned h ht hl).1
    | http call =>
      obtain ⟨a', _, _, htold⟩ := h.told Arrival.program_eq ht hl
      exact (htold call.parsed).1
  refine ⟨hlegal, ?_, hcommands, ?_, fun i => ?_⟩
  · rintro ts₁ t ts₂ rfl
    exact Serves.accounts h.split.1
  · intro t ht i call past a hl
    obtain ⟨a', rfl, -, htold⟩ := h.told Arrival.program_eq ht hl
    exact congrArg Returned.http (htold call.parsed).2
  · rw [written_run h i]
    refine readResponses_printed fun pair hpair => ?_
    obtain ⟨t, ht, hx⟩ := List.mem_filterMap.mp hpair
    obtain ⟨j, c, d, past, a, hl, rfl⟩ := exchange_eq_some hx
    refine answerOf_answers (fun cmd hasks => ?_) fun cmd a hentry => ?_
    · rw [hcommands t ht j _ past a hl, Arrival.commands, hasks]
      rfl
    · have hmem := Pool.mem_log h.handlers (List.mem_map_of_mem ht) hl hentry
      exact legal_mem step hlegal hmem

end Runs

def acceptedK : Waiting 32 := ⟨.accepted ⟨.fresh true 32 .none, 0, 0⟩, ready_accepted rfl⟩

def fittingSet : Fitting 32 := { sendSet with fits := by decide }

/-- A `set` on a connection, and a `GET` of the web server before its `put`. -/
theorem connections_act_as_one_set :
    ∃ (ts : List (Instant Bool (Arrival 32))) (s : Serving Bool (Arrival 32)),
      Arrival.Serves (fun _ => none) .none 0 0 ts s ∧ (exchanges true ts).length = 1 ∧
        OneMap (fun _ => none) ts s := by
  have h₀ : Arrival.Serves (fun _ => none) .none 0 0 [] (Serving.initial (fun _ => none)
    ⟨.fresh true 32 .none, 0, 0⟩ : Serving Bool (Arrival 32)) := .start
  have h₁ := h₀.snoc (.started (i := true) (q := .sent acceptedK fittingSet) rfl
    (by rintro _ ⟨⟩; rfl))
  have h₂ := h₁.snoc (.started (i := false) (q := .http (.get (text "k"))) rfl (by rintro _ ⟨⟩))
  have h₃ := h₂.snoc (.performed (i := false) rfl (faultless_missing rfl))
  have h₄ := h₃.snoc (.performed (i := true) rfl faultless_put)
  have h₅ := h₄.snoc (.returned (i := true) rfl)
  have h₆ := h₅.snoc (.returned (i := false) rfl)
  refine ⟨_, _, h₆, rfl, connections_act_as_one h₆ fun t ht => ⟨?_, ?_⟩⟩
  · intro i q e k value hl he hput j hj
    obtain ⟨qj, past, v, next, hclient, hadd⟩ := hj
    simp only [List.nil_append, List.cons_append, List.mem_cons, List.not_mem_nil, or_false] at ht
    rcases ht with rfl | rfl | rfl | rfl | rfl | rfl <;> cases hl <;> cases he
    cases j with
    | true =>
      cases hclient
      exact absurd hadd.2.1 (by decide)
    | false => cases hclient
  · intro i q e k hl he
    simp only [List.nil_append, List.cons_append, List.mem_cons, List.not_mem_nil, or_false] at ht
    rcases ht with rfl | rfl | rfl | rfl | rfl | rfl <;> cases hl <;> cases he

end Quitsies.Service
