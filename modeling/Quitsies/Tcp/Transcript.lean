import Quitsies.Tcp.Grammar
import Quitsies.Tcp.Server

/-!
# What a connection hears

A connection of a server that was given no limits, and a client that may send anything.
The reads are cut into requests by the grammar alone: a request is over in the read
that completes a sentence, what is behind the sentence in that read is dropped, and
the next read begins the next request. What was heard decides every call of the store,
every response and whether the connection is closed.
-/

namespace Quitsies.Tcp

open Text Interaction Db

/-- Bytes that are no whole request yet. -/
structure Going (data : Bytes) : Prop where
  noSentence : ∀ s asked noreply, Sentence s asked noreply → ¬ s <+: data
  noQuit : ¬ Quits data

/-- What is heard in reads that come one after the other, where `pending` has been read
of a request before them: what each whole request asks for, and whether it is to be
answered in silence, and whether the connection was told to quit. -/
inductive Heard : (pending : Bytes) → (reads : List Bytes) → List (Asked × Bool) → (quit : Bool) →
    Prop
  | nothing {pending : Bytes} : Heard pending [] [] false
  | going {pending data : Bytes} {reads : List Bytes} {heard : List (Asked × Bool)} {quit : Bool}
      (going : Going (pending ++ data)) (rest : Heard (pending ++ data) reads heard quit) :
      Heard pending (data :: reads) heard quit
  | sentence {pending data s : Bytes} {reads : List Bytes} {asked : Asked} {noreply : Bool}
      {heard : List (Asked × Bool)} {quit : Bool} (sentence : Sentence s asked noreply)
      (within : s <+: pending ++ data) (rest : Heard [] reads heard quit) :
      Heard pending (data :: reads) ((asked, noreply) :: heard) quit
  | quit {pending data : Bytes} {reads : List Bytes} (quits : Quits (pending ++ data)) :
      Heard pending (data :: reads) [] true

/-- Doing what was asked, in order; the responses are those that are not silent. -/
def replies (db : Bool) : List (Asked × Bool) → StoreProg (List Bytes)
  | [] => return []
  | (asked, noreply) :: heard => do
    let response ← asked.answer db
    let later ← replies db heard
    return (if noreply then [] else [response]) ++ later

/-! ## Reads are heard in one way -/

theorem Sentence.not_quits {s data : Bytes} {asked : Asked} {noreply : Bool}
    (h : Sentence s asked noreply) (hp : s <+: data) : ¬ Quits data := by
  intro hq
  obtain ⟨rest, rfl⟩ := hp
  obtain ⟨e, he, -⟩ := h.ending false 0 .none
  obtain ⟨r, hscan, -⟩ := (quits_iff false 0 .none _).mp hq
  have hnone := ending_of_scan hscan
  rw [ending_append he] at hnone
  cases hnone

theorem exists_heard (pending : Bytes) (reads : List Bytes) :
    ∃ heard quit, Heard pending reads heard quit := by
  induction reads generalizing pending with
  | nil => exact ⟨[], false, .nothing⟩
  | cons data reads ih =>
    by_cases hs : ∃ s asked noreply, Sentence s asked noreply ∧ s <+: pending ++ data
    · obtain ⟨s, asked, noreply, hs, hp⟩ := hs
      obtain ⟨heard, quit, hrest⟩ := ih []
      exact ⟨_, quit, .sentence hs hp hrest⟩
    by_cases hq : Quits (pending ++ data)
    · exact ⟨[], true, .quit hq⟩
    · obtain ⟨heard, quit, hrest⟩ := ih (pending ++ data)
      refine ⟨heard, quit, .going ⟨?_, hq⟩ hrest⟩
      exact fun s asked noreply hsentence hp => hs ⟨s, asked, noreply, hsentence, hp⟩

theorem Heard.unique {pending : Bytes} {reads : List Bytes} {heard heard' : List (Asked × Bool)}
    {quit quit' : Bool} (h : Heard pending reads heard quit)
    (h' : Heard pending reads heard' quit') : heard = heard' ∧ quit = quit' := by
  induction h generalizing heard' quit' with
  | nothing => cases h'; exact ⟨rfl, rfl⟩
  | going hgoing _ ih =>
    cases h' with
    | going _ rest => exact ih rest
    | sentence hs hp _ => exact absurd hp (hgoing.noSentence _ _ _ hs)
    | quit hq => exact absurd hq hgoing.noQuit
  | sentence hs hp _ ih =>
    cases h' with
    | going hgoing _ => exact absurd hp (hgoing.noSentence _ _ _ hs)
    | sentence hs' hp' rest =>
      obtain ⟨-, rfl, rfl⟩ := hs.unique_within hs' hp hp'
      obtain ⟨rfl, hquit⟩ := ih rest
      exact ⟨rfl, hquit⟩
    | quit hq => exact absurd hq (hs.not_quits hp)
  | quit hq =>
    cases h' with
    | going hgoing _ => exact absurd hq hgoing.noQuit
    | sentence hs hp _ => exact absurd hq (hs.not_quits hp)
    | quit _ => exact ⟨rfl, rfl⟩

/-! ## A connection does what it hears -/

/-- A running connection without a byte limit that has read `pending` of a request. -/
structure Session.Amid (db : Bool) (pending : Bytes) (s : Session) : Prop where
  running : s.stopped = false
  unlimited : s.connection.request.maxBytes = 0
  database : s.connection.request.db = db
  request : ∃ g, scan (.fresh db 0 g) pending = some s.connection.request

theorem Session.Ready.amid {db : Bool} {s : Session} (h : s.Ready db 0) : s.Amid db [] := by
  obtain ⟨g, hg⟩ := h.request
  exact ⟨h.running, by rw [hg]; rfl, by rw [hg]; rfl, g, by rw [hg]; rfl⟩

namespace Session.Amid

variable {db : Bool} {pending : Bytes} {s : Session}

theorem exceeds (h : s.Amid db pending) (data : Bytes) :
    s.connection.request.exceeds data.length = false := by
  rw [Request.exceeds, h.unlimited]
  rfl

theorem status (h : s.Amid db pending) : s.connection.request.status ≠ .finished := by
  obtain ⟨g, hscan⟩ := h.request
  exact scan_going (fresh_going db 0 g) hscan

/-- A read that completes nothing. -/
theorem read_going (h : s.Amid db pending) {data : Bytes} (hgoing : Going (pending ++ data)) :
    ∃ s' : Session, s.read data = .done s' ∧ s'.Amid db (pending ++ data) ∧
      s'.written = s.written := by
  obtain ⟨g, hscan⟩ := h.request
  cases he : ending (.fresh db 0 g) (pending ++ data) with
  | some x =>
    obtain ⟨t, asked, noreply, hdata, ht, -⟩ := ending_sentence he
    exact absurd ⟨x.2, hdata.symm⟩ (hgoing.noSentence t asked noreply ht)
  | none =>
    obtain ⟨r, hr⟩ := scan_of_ending he
    have hrest := hr
    rw [scan_append, hscan, Option.bind_some] at hrest
    have hreading := s.settle_reading (scan_going h.status hrest)
    have hconfig := (scan_continues hrest).config
    refine ⟨s.settle r, s.read_scanned (h.exceeds data) hrest, ⟨?_, ?_, ?_, g, ?_⟩,
      hreading.written⟩
    · have hquit : r.status ≠ .quitting := fun hq =>
        hgoing.noQuit ((quits_iff db 0 g _).mpr ⟨r, hr, hq⟩)
      rw [hreading.stopped, h.running, beq_eq_false_iff_ne.mpr hquit]
      rfl
    · rw [hreading.connection]
      exact hconfig.2.trans h.unlimited
    · rw [hreading.connection]
      exact hconfig.1.trans h.database
    · rw [hreading.connection]
      exact hr

/-- A read that completes a sentence. -/
theorem read_sentence (h : s.Amid db pending) {data t : Bytes} {asked : Asked} {noreply : Bool}
    (ht : Sentence t asked noreply) (hp : t <+: pending ++ data) :
    ∃ q : Request, s.read data = (fun response => s.settle (q.answered response)) <$>
        asked.answer db ∧
      ∀ response, (s.settle (q.answered response)).Ready db 0 ∧
        (s.settle (q.answered response)).written =
          s.written ++ if noreply then [] else [response] := by
  obtain ⟨g, hscan⟩ := h.request
  obtain ⟨rest, hdata⟩ := hp
  obtain ⟨e, he, htells⟩ := ht.ending db 0 g
  have hend := ending_append he rest
  rw [hdata, ending_scan hscan] at hend
  obtain ⟨q, ⟨hdb, hmax⟩, rfl, hloop⟩ := loop_ending hend htells
  refine ⟨q, ?_, fun response => ?_⟩
  · rw [s.read_of_loop (h.exceeds data), hloop, h.database, Functor.map_map]
  · have ha : s.Answered (s.settle (q.answered response)) (q.answered response) :=
      s.settle_finished rfl
    exact ⟨ha.ready h.running ⟨hdb.trans h.database, hmax.trans h.unlimited⟩, ha.written⟩

/-- A read that quits. -/
theorem read_quit (h : s.Amid db pending) {data : Bytes} (hq : Quits (pending ++ data)) :
    ∃ s' : Session, s.read data = .done s' ∧ s'.stopped = true ∧ s'.written = s.written := by
  obtain ⟨g, hscan⟩ := h.request
  obtain ⟨r, hr, hstatus⟩ := (quits_iff db 0 g _).mp hq
  rw [scan_append, hscan, Option.bind_some] at hr
  have hreading := s.settle_reading (scan_going h.status hr)
  refine ⟨s.settle r, s.read_scanned (h.exceeds data) hr, ?_, hreading.written⟩
  rw [hreading.stopped, hstatus]
  exact Bool.or_true _

end Session.Amid

/-- What the outside sees of a connection: the responses it wrote, and whether it is closed. -/
def Session.seen (s : Session) : List Bytes × Bool := (s.written, s.stopped)

/-- Reads that begin in the middle of a request, read by read. -/
theorem serve_heard {db : Bool} {pending : Bytes} {reads : List Bytes}
    {heard : List (Asked × Bool)} {quit : Bool} (hheard : Heard pending reads heard quit)
    {s : Session} (h : s.Amid db pending) :
    Session.seen <$> s.serve reads =
      (fun responses => (s.written ++ responses, quit)) <$> replies db heard := by
  induction hheard generalizing s with
  | nothing =>
    simp only [Session.serve, replies, map_pure, Session.seen, h.running, List.append_nil]
  | going hgoing _ ih =>
    obtain ⟨s', hread, hs', hwritten⟩ := h.read_going hgoing
    rw [s.serve_cons h.running, hread, Prog.done_bind, ih hs', hwritten]
  | sentence hs hp _ ih =>
    obtain ⟨q, hread, hq⟩ := h.read_sentence hs hp
    rw [s.serve_cons h.running, hread, replies]
    simp only [← bind_pure_comp, Prog.bind_assoc]
    congr 1
    funext response
    have hrest := ih (hq response).1.amid
    rw [(hq response).2] at hrest
    simpa only [← bind_pure_comp, List.append_assoc, pure_bind] using hrest
  | quit hquits =>
    obtain ⟨s', hread, hstopped, hwritten⟩ := h.read_quit hquits
    rw [s.serve_cons h.running, hread, Prog.done_bind, s'.serve_stopped hstopped]
    simp only [replies, map_pure, Prog.map_done, Session.seen, hstopped, hwritten, List.append_nil]
    rfl

/-- A connection as it is accepted. -/
theorem accepted_heard (db : Bool) (command : CommandType) {reads : List Bytes}
    {heard : List (Asked × Bool)} {quit : Bool} (h : Heard [] reads heard quit) :
    Session.seen <$> (Session.accepted ((Server.construct db).accept command)).serve reads =
      (fun responses => (responses, quit)) <$> replies db heard := by
  have hready : (Session.accepted ((Server.construct db).accept command)).Ready db 0 :=
    ready_accepted rfl
  have hserve := serve_heard h hready.amid
  simpa only [Session.written_accepted, List.nil_append] using hserve

/-- **A connection does what it hears.** Whatever a client sends, in whatever reads, to a
server as it is constructed, there is one way to hear it, and the responses that are
written, the calls of the store behind them and whether the connection is closed are
those of what was heard. -/
theorem connection_by_grammar (db : Bool) (command : CommandType) (reads : List Bytes) :
    ∃ heard quit, Heard [] reads heard quit ∧
      (∀ heard' quit', Heard [] reads heard' quit' → heard' = heard ∧ quit' = quit) ∧
      Session.seen <$> (Session.accepted ((Server.construct db).accept command)).serve reads =
        (fun responses => (responses, quit)) <$> replies db heard := by
  obtain ⟨heard, quit, hheard⟩ := exists_heard [] reads
  exact ⟨heard, quit, hheard, fun heard' quit' h' => h'.unique hheard,
    accepted_heard db command hheard⟩

end Quitsies.Tcp
