import Quitsies.Service.Connections
import Quitsies.Service.Hearing

/-!
# Any bytes on many connections

Any number of TCP connections and callers of `/key/{key}` are served at a time, and the
clients of the connections send what they like. What a connection hears is decided by
its own bytes; the commands that all of them come to are carried out in one order, and
every connection is written the lines that answer its own.
-/

namespace Quitsies.Service.Streams

open Text Interaction Db Tcp Reference
open Pool (carried events Accounts)

/-! ## What a request that was heard is executed as -/

/-- The commands of the map that a request comes to, one for each key of a retrieval. -/
def commandsOf (asked : Asked) : List Command := ((demands asked).map Command.atoms).getD []

/-- The line that answers a request, by the answers to its commands. -/
def lineOf (asked : Asked) (answers : List Answer) : Bytes :=
  match demands asked with
  | some c => (c.gather answers).line
  | none => remark asked

/-- An operation without calls. -/
def silent : Operation := .tcp (.fresh true 0 .ping)

def operationOf : Asked → Operation
  | .store kind key value =>
    .tcp { Request.fresh true 0 kind.command with keys := [key], buffer := value }
  | .delete key => .tcp { Request.fresh true 0 .delete with keys := [key] }
  | .retrieve keys => .tcp { Request.fresh true 0 .get with keys := keys }
  | .ping => silent
  | .refused _ => silent

/-- The response to a request whose operation is told `a`. -/
def lineTold : Asked → Reply → Bytes
  | .refused what, _ => clientErrorLine what
  | _, a => a.line

theorem answer_operation (asked : Asked) :
    asked.answer true = lineTold asked <$> (operationOf asked).program := by
  cases asked with
  | ping | refused what => rfl
  | retrieve keys | delete key | store kind key value =>
    simp only [Asked.answer, operationOf, Operation.program, Functor.map_map]
    rfl

/-- A request that demands something is an operation with that command. -/
theorem operationOf_demands {asked : Asked} {c : Command} (h : demands asked = some c) :
    (operationOf asked).Parsed ∧ (operationOf asked).command = c ∧
      ∀ answers, lineTold asked ((operationOf asked).assemble answers) =
        (c.gather answers).line := by
  cases asked with
  | ping | refused what => cases h
  | retrieve keys =>
    cases keys with
    | nil => cases h
    | cons key keys =>
      cases h
      exact ⟨⟨rfl, List.cons_ne_nil _ _, .inr (.inr (.inr (.inl rfl)))⟩, rfl, fun _ => rfl⟩
  | delete key =>
    cases h
    exact ⟨⟨rfl, List.cons_ne_nil _ _, .inr (.inr (.inl rfl))⟩, rfl, fun _ => rfl⟩
  | store kind key value =>
    cases kind with
    | set => cases h; exact ⟨⟨rfl, List.cons_ne_nil _ _, .inl rfl⟩, rfl, fun _ => rfl⟩
    | add => cases h; exact ⟨⟨rfl, List.cons_ne_nil _ _, .inr (.inl rfl)⟩, rfl, fun _ => rfl⟩

/-- A request that demands nothing makes no calls. -/
theorem operationOf_silent {asked : Asked} (h : demands asked = none) :
    ∃ a, (operationOf asked).program = .done a ∧ lineTold asked a = remark asked := by
  cases asked with
  | ping | refused what => exact ⟨_, rfl, rfl⟩
  | retrieve keys =>
    cases keys with
    | nil => exact ⟨_, rfl, rfl⟩
    | cons key keys => cases h
  | delete key => cases h
  | store kind key value => cases kind <;> cases h

/-! ## One read -/

/-- What is heard in a read that the request is given. -/
def heardIn (r : Request) (data : Bytes) : Option (Asked × Bool) :=
  (ending r data).bind fun e => e.1.tells

def operationIn (r : Request) (data : Bytes) : Operation :=
  match heardIn r data with
  | some (asked, _) => operationOf asked
  | none => silent

section Reads

variable {s : Session} {pending data : Bytes}

/-- A read hears a sentence where one begins the request. -/
theorem heardIn_eq (h : s.Amid true pending) {asked : Asked} {noreply : Bool} :
    heardIn s.connection.request data = some (asked, noreply) ↔
      ∃ t, Sentence t asked noreply ∧ t <+: pending ++ data := by
  obtain ⟨g, hscan⟩ := h.request
  rw [heardIn, ← ending_scan hscan]
  constructor
  · intro hx
    obtain ⟨⟨e, rest⟩, he, htells⟩ := Option.bind_eq_some_iff.mp hx
    obtain ⟨t, asked', noreply', hdata, ht, htells'⟩ := ending_sentence he
    obtain ⟨rfl, rfl⟩ := Prod.mk.inj (Option.some.inj (htells'.symm.trans htells))
    exact ⟨t, ht, rest, hdata.symm⟩
  · rintro ⟨t, ht, rest, hdata⟩
    obtain ⟨e, he, htells⟩ := ht.ending true 0 g
    rw [← hdata, ending_append he]
    exact htells

theorem heardIn_none (h : s.Amid true pending) (hx : heardIn s.connection.request data = none) :
    Going (pending ++ data) ∨ Quits (pending ++ data) := by
  by_cases hq : Quits (pending ++ data)
  · exact .inr hq
  · refine .inl ⟨fun t asked noreply ht hp => ?_, hq⟩
    have hsome := (heardIn_eq h).mpr ⟨t, ht, hp⟩
    rw [hx] at hsome
    cases hsome

/-- What a read of a session makes of it, by what its operation is told. -/
structure Reading (s : Session) (data : Bytes) (word : Reply → Session) : Prop where
  read : s.read data = word <$> (operationIn s.connection.request data).program
  silent : heardIn s.connection.request data = none → ∀ a, (word a).written = s.written ∧
    ∀ pending, s.Amid true pending →
      (Going (pending ++ data) ∧ (word a).Amid true (pending ++ data)) ∨
        (Quits (pending ++ data) ∧ (word a).stopped = true)
  told : ∀ asked noreply, heardIn s.connection.request data = some (asked, noreply) → ∀ a,
    (word a).Amid true [] ∧
      (word a).written = s.written ++ if noreply then [] else [lineTold asked a]

theorem exists_reading (h : s.Amid true pending) (data : Bytes) :
    ∃ word, Reading s data word := by
  cases hx : heardIn s.connection.request data with
  | some x =>
    obtain ⟨asked, noreply⟩ := x
    obtain ⟨t, ht, hp⟩ := (heardIn_eq h).mp hx
    obtain ⟨q, hread, hq⟩ := h.read_sentence ht hp
    refine ⟨fun a => s.settle (q.answered (lineTold asked a)), ?_, ?_, ?_⟩
    · rw [hread, answer_operation, operationIn, hx, Functor.map_map]
    · intro hnone
      rw [hx] at hnone
      cases hnone
    · intro asked' noreply' hsome a
      rw [hx] at hsome
      cases hsome
      exact ⟨(hq _).1.amid, (hq _).2⟩
  | none =>
    have hone : ∃ s' : Session, s.read data = .done s' ∧ s'.written = s.written := by
      rcases heardIn_none h hx with hgoing | hquits
      · obtain ⟨s', hread, -, hwritten⟩ := h.read_going hgoing
        exact ⟨s', hread, hwritten⟩
      · obtain ⟨s', hread, -, hwritten⟩ := h.read_quit hquits
        exact ⟨s', hread, hwritten⟩
    obtain ⟨s', hread, hwritten⟩ := hone
    refine ⟨fun _ => s', ?_, fun _ _ => ⟨hwritten, fun p hp => ?_⟩, ?_⟩
    · rw [hread, operationIn, hx]
      rfl
    · rcases heardIn_none hp hx with hgoing | hquits
      · obtain ⟨s₁, hread₁, hamid, -⟩ := hp.read_going hgoing
        rw [hread] at hread₁
        cases hread₁
        exact .inl ⟨hgoing, hamid⟩
      · obtain ⟨s₁, hread₁, hstopped, -⟩ := hp.read_quit hquits
        rw [hread] at hread₁
        cases hread₁
        exact .inr ⟨hquits, hstopped⟩
    · intro asked noreply hsome
      rw [hx] at hsome
      cases hsome

end Reads

/-! ## The service -/

/-- A running connection, wherever it is in a request. -/
structure Listening where
  session : Session
  amid : ∃ pending, session.Amid true pending

/-- A read on a connection, or a call of the web server. -/
inductive Input where
  | read (c : Listening) (data : Bytes)
  | http (call : HttpCall)

namespace Input

def operation : Input → Operation
  | read c data => operationIn c.session.connection.request data
  | http call => call.operation

def program : Input → StoreProg Returned
  | read c data => Returned.session <$> c.session.read data
  | http call => Returned.http <$> call.operation.program

/-- The session that is read in. -/
def within : Input → Option Session
  | read c _ => some c.session
  | http _ => none

def commits (q : Input) (e : StoreEvent) : Option (Command × Answer) := q.operation.commits e

theorem exists_word (c : Listening) (data : Bytes) : ∃ word, Reading c.session data word :=
  have ⟨_, h⟩ := c.amid
  exists_reading h data

/-- What becomes of an input whose operation is told `a`. -/
noncomputable def outcome : Input → Reply → Returned
  | read c data, a => .session (Classical.choose (exists_word c data) a)
  | http _, a => .http a

theorem program_eq (q : Input) : q.program = q.outcome <$> q.operation.program := by
  cases q with
  | http call => rfl
  | read c data =>
    rw [program, (Classical.choose_spec (exists_word c data)).read, Functor.map_map]
    rfl

/-- The runs in which connections are sent anything. -/
abbrev Serves {ι : Type} [DecidableEq ι] (m : Contents) (command : CommandType)
    (ts : List (Instant ι Input)) (s : Serving ι Input) : Prop :=
  Service.Serves program within m ((Server.construct true).accept command) ts s

end Input

/-! ## What a connection has heard and said -/

variable {ι : Type} [DecidableEq ι]

/-- What was read by the handler that returns, if it is of connection `i`, and the
commands that it has carried out. -/
def reading (i : ι) : Served ι Input → Option (Bytes × List (Command × Answer))
  | .finish j (.read c data) past _ =>
    if j = i then some (data, carried Input.commits (.read c data) past) else none
  | _ => none

def readings (i : ι) (ts : List (Instant ι Input)) : List (Bytes × List (Command × Answer)) :=
  ts.filterMap fun t => reading i t.label

/-- A request that was heard, and the commands that were carried out for it. -/
abbrev Told := (Asked × Bool) × List (Command × Answer)

/-- The response, unless it is silent. -/
def Told.lines (x : Told) : List Bytes :=
  if x.1.2 then [] else [lineOf x.1.1 (x.2.map Prod.snd)]

/-- What `reads` with these commands have come to: what was heard in them, each request
with all the commands that it demands and no others, and the lines that answer them. -/
structure Transcribed (reads : List (Bytes × List (Command × Answer))) (told : List Told)
    (quit : Bool) (s : Session) : Prop where
  heard : Heard [] (reads.map Prod.fst) (told.map Prod.fst) quit
  commands : ∀ x ∈ told, x.2.map Prod.fst = commandsOf x.1.1
  entries : reads.flatMap Prod.snd = told.flatMap Prod.snd
  written : s.written = told.flatMap Told.lines
  stopped : s.stopped = quit

/-- Reads that have been heard so far, with what is left of a request. -/
inductive Upto : List Bytes → List (Asked × Bool) → (pending : Bytes) → Prop
  | nothing : Upto [] [] []
  | going {reads : List Bytes} {heard : List (Asked × Bool)} {pending data : Bytes}
      (before : Upto reads heard pending) (going : Going (pending ++ data)) :
      Upto (reads ++ [data]) heard (pending ++ data)
  | sentence {reads : List Bytes} {heard : List (Asked × Bool)} {pending data t : Bytes}
      {asked : Asked} {noreply : Bool} (before : Upto reads heard pending)
      (sentence : Sentence t asked noreply) (within : t <+: pending ++ data) :
      Upto (reads ++ [data]) (heard ++ [(asked, noreply)]) []

/-- What is heard in reads goes on with what is heard behind them. -/
theorem Upto.heard {reads more : List Bytes} {heard heard' : List (Asked × Bool)}
    {pending : Bytes} {quit : Bool} (h : Upto reads heard pending)
    (hmore : Heard pending more heard' quit) :
    Heard [] (reads ++ more) (heard ++ heard') quit := by
  induction h generalizing more heard' with
  | nothing => exact hmore
  | going _ hgoing ih =>
    rw [List.append_assoc]
    exact ih (.going hgoing hmore)
  | sentence _ hs hp ih =>
    rw [List.append_assoc, List.append_assoc]
    exact ih (.sentence hs hp hmore)

/-- What a connection has come to. One that runs is somewhere in a request. -/
structure Follows (reads : List (Bytes × List (Command × Answer))) (told : List Told)
    (s : Session) : Prop where
  commands : ∀ x ∈ told, x.2.map Prod.fst = commandsOf x.1.1
  entries : reads.flatMap Prod.snd = told.flatMap Prod.snd
  written : s.written = told.flatMap Told.lines
  heard : (∃ pending, Upto (reads.map Prod.fst) (told.map Prod.fst) pending ∧
      s.Amid true pending) ∨
    (Heard [] (reads.map Prod.fst) (told.map Prod.fst) true ∧ s.stopped = true)

theorem Follows.running {reads : List (Bytes × List (Command × Answer))} {told : List Told}
    {s : Session} (h : Follows reads told s) (hs : s.stopped = false) :
    ∃ pending, Upto (reads.map Prod.fst) (told.map Prod.fst) pending ∧ s.Amid true pending :=
  h.heard.resolve_right fun hquit => by
    rw [hs] at hquit
    cases hquit.2

theorem Follows.transcribed {reads : List (Bytes × List (Command × Answer))} {told : List Told}
    {s : Session} (h : Follows reads told s) : ∃ quit, Transcribed reads told quit s := by
  rcases h.heard with ⟨pending, hupto, hamid⟩ | ⟨hheard, hstopped⟩
  · refine ⟨false, ?_, h.commands, h.entries, h.written, hamid.running⟩
    have hheard := hupto.heard .nothing
    rwa [List.append_nil, List.append_nil] at hheard
  · exact ⟨true, hheard, h.commands, h.entries, h.written, hstopped⟩

/-- One read more, which has carried out `entries` and was told `a`. -/
theorem Follows.read {reads : List (Bytes × List (Command × Answer))} {told : List Told}
    {s : Session} (h : Follows reads told s) (hs : s.stopped = false) {data : Bytes}
    {word : Reply → Session} (hword : Reading s data word) {entries : List (Command × Answer)}
    {a : Reply} (hnone : heardIn s.connection.request data = none → entries = [])
    (hsome : ∀ asked noreply, heardIn s.connection.request data = some (asked, noreply) →
      entries.map Prod.fst = commandsOf asked ∧
        lineTold asked a = lineOf asked (entries.map Prod.snd)) :
    ∃ told', Follows (reads ++ [(data, entries)]) told' (word a) := by
  obtain ⟨pending, hupto, hamid⟩ := h.running hs
  cases hx : heardIn s.connection.request data with
  | none =>
    obtain ⟨hwritten, hcases⟩ := hword.silent hx a
    refine ⟨told, h.commands, ?_, hwritten.trans h.written, ?_⟩
    · rw [List.flatMap_append, h.entries, hnone hx]
      simp
    · rw [List.map_append, List.map_singleton]
      rcases hcases pending hamid with ⟨hgoing, hamid'⟩ | ⟨hquits, hstopped⟩
      · exact .inl ⟨_, .going hupto hgoing, hamid'⟩
      · have hlast : Heard pending [data] [] true := .quit hquits
        have hheard := hupto.heard hlast
        rw [List.append_nil] at hheard
        exact .inr ⟨hheard, hstopped⟩
  | some x =>
    obtain ⟨asked, noreply⟩ := x
    obtain ⟨hamid', hwritten⟩ := hword.told asked noreply hx a
    obtain ⟨hcommands, hline⟩ := hsome asked noreply hx
    obtain ⟨t, ht, hp⟩ := (heardIn_eq hamid).mp hx
    refine ⟨told ++ [((asked, noreply), entries)], ?_, ?_, ?_, .inl ⟨[], ?_, hamid'⟩⟩
    · exact List.forall_mem_append.mpr ⟨h.commands, List.forall_mem_singleton.mpr hcommands⟩
    · rw [List.flatMap_append, List.flatMap_append, h.entries, List.flatMap_singleton,
        List.flatMap_singleton]
    · rw [hwritten, h.written, hline, List.flatMap_append, List.flatMap_singleton]
      rfl
    · rw [List.map_append, List.map_append]
      exact .sentence hupto ht hp

/-! ## The service over a run -/

section Runs

variable {m : Contents} {command : CommandType} {ts : List (Instant ι Input)} {s : Serving ι Input}

/-- A handler that has returned from a read has carried out what it heard. -/
theorem read_returned (h : Input.Serves m command ts s) {t : Instant ι Input} (ht : t ∈ ts) {i : ι}
    {c : Listening} {data : Bytes} {past : List (World × StoreEvent)} {a : Returned}
    (hl : t.label = .finish i (.read c data) past a) :
    let entries := carried Input.commits (.read c data) past
    ∃ word a', a = .session (word a') ∧ Reading c.session data word ∧
      (heardIn c.session.connection.request data = none → entries = []) ∧
      ∀ asked noreply, heardIn c.session.connection.request data = some (asked, noreply) →
        entries.map Prod.fst = commandsOf asked ∧
          lineTold asked a' = lineOf asked (entries.map Prod.snd) := by
  intro entries
  obtain ⟨a', rfl, hperforms, htold⟩ := h.told Input.program_eq ht hl
  have hoperation : Input.operation (.read c data) =
      operationIn c.session.connection.request data := rfl
  have hdone {b : Reply} (hb : (Input.operation (.read c data)).program = .done b) :
      entries = [] ∧ a' = b := by
    rw [hb] at hperforms
    obtain ⟨hevents, rfl⟩ := Prog.performs_done.mp hperforms
    refine ⟨?_, rfl⟩
    rw [show entries = _ from Pool.carried_events .., hevents]
    rfl
  refine ⟨_, a', rfl, Classical.choose_spec (Input.exists_word c data), fun hx => ?_,
    fun asked noreply hx => ?_⟩
  · have hsilent : (Input.operation (.read c data)).program =
        .done (.tcp ((Request.fresh true 0 .ping).answered pong)) := by
      rw [hoperation, operationIn, hx]
      rfl
    exact (hdone hsilent).1
  · have hasked : Input.operation (.read c data) = operationOf asked := by
      rw [hoperation, operationIn, hx]
    cases hd : demands asked with
    | none =>
      obtain ⟨b, hb, hline⟩ := operationOf_silent hd
      obtain ⟨hentries, rfl⟩ := hdone (by rw [hasked, hb])
      rw [hentries, hline, commandsOf, lineOf, hd]
      exact ⟨rfl, rfl⟩
    | some cmd =>
      obtain ⟨hparsed, hcommand, hline⟩ := operationOf_demands hd
      rw [hasked] at htold
      obtain ⟨hcommands, ha'⟩ := htold hparsed
      have hentries : entries =
          carried (fun q : Input => q.operation.commits) (.read c data) past := rfl
      rw [ha', hline, commandsOf, lineOf, hd, hentries]
      rw [hcommand] at hcommands
      exact ⟨hcommands, rfl⟩

theorem readings_concat (i : ι) (ts : List (Instant ι Input)) (t : Instant ι Input) :
    readings i (ts ++ [t]) = readings i ts ++ (reading i t.label).toList := by
  rw [readings, List.filterMap_append]
  cases hx : reading i t.label <;> simp [readings, hx]

/-- One step more. -/
theorem follows_step (h : Input.Serves m command ts s) {l : Served ι Input} {s' : Serving ι Input}
    (hs : Serving.Step Input.program Input.within s l s') (j : ι) {told : List Told}
    (hfollows : Follows (readings j ts) told (s.session j)) :
    ∃ told', Follows (readings j (ts ++ [⟨s, l, s'⟩])) told' (s'.session j) := by
  have hmem : (⟨s, l, s'⟩ : Instant ι Input) ∈ ts ++ [⟨s, l, s'⟩] := by simp
  have hrun : Input.Serves m command _ s' := h.snoc hs
  have hkept (hreading : reading j l = none) (hsession : s'.session j = s.session j) :
      ∃ told', Follows (readings j (ts ++ [⟨s, l, s'⟩])) told' (s'.session j) := by
    rw [readings_concat, hreading, Option.toList_none, List.append_nil, hsession]
    exact ⟨told, hfollows⟩
  cases l with
  | start i q | perform i q e =>
    refine hkept rfl ?_
    cases hs
    rfl
  | finish i q past a =>
    cases q with
    | http call =>
      obtain ⟨a', rfl, -⟩ := hrun.told Input.program_eq hmem rfl
      refine hkept rfl ?_
      cases hs
      rfl
    | read c data =>
      obtain ⟨word, a', rfl, hword, hnone, hsome⟩ := read_returned hrun hmem rfl
      have hsession : s'.session = Function.update s.session i (word a') := hs.session
      by_cases he : j = i
      · subst he
        have hc : c.session = s.session j := h.finish_within hs rfl
        obtain ⟨pending, hamid⟩ := c.amid
        rw [← hc] at hfollows
        rw [readings_concat, hsession, Function.update_self]
        simp only [reading, ↓reduceIte, Option.toList_some]
        exact hfollows.read hamid.running hword hnone hsome
      · refine hkept (if_neg fun hij => he hij.symm) ?_
        rw [hsession, Function.update_of_ne he]

theorem follows_run (h : Input.Serves m command ts s) (i : ι) :
    ∃ told, Follows (readings i ts) told (s.session i) := by
  induction h with
  | start =>
    have hready : (Session.accepted ((Server.construct true).accept command)).Ready true 0 :=
      ready_accepted rfl
    exact ⟨[], nofun, rfl, Session.written_accepted _, .inl ⟨[], .nothing, hready.amid⟩⟩
  | snoc hrun hs ih =>
    obtain ⟨told, hfollows⟩ := ih
    exact follows_step hrun hs i hfollows

/-- What a run of the service shows of one map. -/
structure OneMap (m : Contents) (ts : List (Instant ι Input)) (s : Serving ι Input) : Prop where
  /-- The commands that the handlers carry out are a run of the map exactly if every
  `ADD` that puts finds its key absent, and every `DELETE` that deletes finds its key. -/
  legal : Legal step m ((Pool.log Input.commits (handling ts)).map Prod.snd)
      s.handlers.world.map ↔
    ∀ t ∈ ts, ∀ i q e, t.label = .perform i q e →
      TimelyCall q.operation e.1 t.before.handlers.world.map
  accounts : Accounts Input.commits (handling ts) s.handlers
  http : ∀ t ∈ ts, ∀ i call past a, t.label = .finish i (.http call) past a →
    let entries := carried Input.commits (Input.http call) past
    entries.map Prod.fst = call.operation.command.atoms ∧
      a = .http (call.operation.assemble (entries.map Prod.snd))
  connections : ∀ i, ∃ told quit, Transcribed (readings i ts) told quit (s.session i)
  /-- A connection that is not stopped and has no handler may be sent anything next. -/
  anything : ∀ i, s.handlers.client i = .idle → (s.session i).stopped = false → ∀ data,
    ∃ c s', Serving.Step Input.program Input.within s (.start i (.read c data)) s'

/-- **Any bytes on any number of connections.** Whatever the clients send, in whatever
reads, and however the handlers of the connections interleave with each other and with
those of the web server, every connection is written the lines that answer what it
heard, and all the answers are those of one map in one order, exactly if every key that
an `ADD` puts is absent then and every key that a `DELETE` deletes is present. -/
theorem streams_act_as_one (h : Input.Serves m command ts s) : OneMap m ts s where
  legal := h.legal_iff Input.program_eq
  accounts := h.accounts
  http t ht i call past a hl := by
    obtain ⟨a', rfl, -, htold⟩ := h.told Input.program_eq ht hl
    obtain ⟨hcommands, ha'⟩ := htold call.parsed
    exact ⟨hcommands, congrArg Returned.http ha'⟩
  connections i := by
    obtain ⟨told, hfollows⟩ := follows_run h i
    exact ⟨told, hfollows.transcribed⟩
  anything i hidle hrunning data := by
    obtain ⟨told, hfollows⟩ := follows_run h i
    obtain ⟨pending, -, hamid⟩ := hfollows.running hrunning
    exact ⟨⟨s.session i, pending, hamid⟩, _, .started hidle (by rintro _ ⟨⟩; rfl)⟩

end Runs

def acceptedListening : Listening :=
  ⟨.accepted ((Server.construct true).accept .none), [], (ready_accepted rfl).amid⟩

/-- A `set` in two reads, with what is no command on another connection in between. -/
theorem streams_act_as_one_set :
    ∃ (ts : List (Instant Bool Input)) (s : Serving Bool Input),
      Input.Serves (fun _ => none) .none ts s ∧
        (readings true ts).map Prod.fst = [text "set k 0 0", text " 1 \nv\n"] ∧
        (s.session true).written = [stored] ∧
        (s.session false).written = [clientErrorLine (text "unsupported command")] ∧
        OneMap (fun _ => none) ts s := by
  have h₀ : Input.Serves (fun _ => none) .none [] (Serving.initial (fun _ => none)
    ((Server.construct true).accept .none) : Serving Bool Input) := .start
  have h₁ := h₀.snoc (.started (i := true) (q := .read acceptedListening (text "set k 0 0")) rfl
    (by rintro _ ⟨⟩; rfl))
  have h₂ := h₁.snoc (.returned (i := true) rfl)
  have h₃ := h₂.snoc (.started (i := false) (q := .read acceptedListening (text "frob\n")) rfl
    (by rintro _ ⟨⟩; rfl))
  have h₄ := h₃.snoc (.returned (i := false) rfl)
  have h₅ := h₄.snoc (.started (i := true)
    (q := .read ⟨_, text "set k 0 0", rfl, rfl, rfl, .none, rfl⟩ (text " 1 \nv\n")) rfl
    (by rintro _ ⟨⟩; rfl))
  have h₆ := h₅.snoc (.performed (i := true) rfl faultless_put)
  have h₇ := h₆.snoc (.returned (i := true) rfl)
  exact ⟨_, _, h₇, rfl, rfl, rfl, streams_act_as_one h₇⟩

end Quitsies.Service.Streams
