import Quitsies.Tcp.Connection

/-!
# A connection over a whole conversation

The handlers of a connection under a client that reads every response: a read
completes, and if its handler started a write, the write completes before the
next read does. A session keeps what the handlers have started and the requests
`process` has finished.
-/

namespace Quitsies.Tcp

open Text Interaction Db

/-- A connection with everything its handlers have started, and the requests
that `process` has finished, as it left them. -/
structure Session where
  connection : Connection
  ops : List AsioOp
  finished : List Request
  deriving DecidableEq

def AsioOp.response? : AsioOp → Option Bytes
  | .asyncWrite response => some response
  | _ => none

@[simp] theorem response?_asyncWrite (response : Bytes) :
    (AsioOp.asyncWrite response).response? = some response := rfl

@[simp] theorem response?_writeTimerCancel : AsioOp.writeTimerCancel.response? = none := rfl

/-- The write handler, after a read handler that started a write. -/
def Connection.writeDone : Connection × List AsioOp → Connection × List AsioOp
  | (c, ops) =>
    if ops.filterMap AsioOp.response? = [] then (c, ops)
    else ((c.onWrite .written).1, ops ++ (c.onWrite .written).2)

namespace Session

/-- A connection whose client has been accepted and has sent nothing yet. -/
def accepted (c : Connection) : Session := ⟨c, c.start, []⟩

/-- The responses written, in order. -/
def written (s : Session) : List Bytes := s.ops.filterMap AsioOp.response?

def stopped (s : Session) : Bool := s.ops.any (· == .managerStop)

/-- What the handlers make of a request that `process` returned. -/
def settle (s : Session) (request : Request) : Session :=
  let done := Connection.writeDone (Connection.dispatch { s.connection with request := request })
  { connection := done.1
    ops := s.ops ++ done.2
    finished := s.finished ++ if request.status = .finished then [request] else [] }

def read (s : Session) (data : Bytes) : StoreProg Session :=
  s.settle <$> process s.connection.request data

/-- Reads completing one after the other until the connection is stopped. -/
def serve (s : Session) : List Bytes → StoreProg Session
  | [] => return s
  | data :: reads => if s.stopped then return s else do serve (← s.read data) reads

/-- A read is the read handler followed by the write handler. -/
theorem read_handlers (s : Session) (data : Bytes) :
    (fun s' : Session => (s'.connection, s'.ops)) <$> s.read data =
      (fun done => ((Connection.writeDone done).1, s.ops ++ (Connection.writeDone done).2)) <$>
        s.connection.onRead (.bytes data) := by
  rw [Connection.onRead_bytes, read]
  simp only [Functor.map_map, settle]

/-! ## After one request -/

variable (s : Session) {request : Request}

/-- Operations that write no response and stop nothing. -/
def Quiet (ops : List AsioOp) : Prop :=
  ops.filterMap AsioOp.response? = [] ∧ ops.any (· == .managerStop) = false

theorem quiet_start (c : Connection) : Quiet c.start := by
  unfold Connection.start Connection.doRead
  split <;> exact ⟨rfl, rfl⟩

theorem quiet_swapTimers (c : Connection) : Quiet c.swapTimers := by
  unfold Connection.swapTimers
  split <;> exact ⟨rfl, rfl⟩

@[simp] theorem written_accepted (c : Connection) : (accepted c).written = [] :=
  (quiet_start c).1

@[simp] theorem stopped_accepted (c : Connection) : (accepted c).stopped = false :=
  (quiet_start c).2

/-- What changes when a request is finished: it is answered, unless it asked for
no reply, and the parser starts again. -/
structure Answered (s s' : Session) (request : Request) : Prop where
  connection : s'.connection = { s.connection with request := request.reset }
  finished : s'.finished = s.finished ++ [request]
  written : s'.written = s.written ++ if request.noReply then [] else [request.response]
  stopped : s'.stopped = s.stopped

/-- What changes while a request is being read. -/
structure Reading (s s' : Session) (request : Request) : Prop where
  connection : s'.connection = { s.connection with request := request }
  finished : s'.finished = s.finished
  written : s'.written = s.written
  stopped : s'.stopped = (s.stopped || request.status == .quitting)

theorem settle_finished (h : request.status = .finished) :
    Answered s (s.settle request) request := by
  let c : Connection := { s.connection with request := request.reset }
  obtain ⟨hstart, hstart'⟩ := quiet_start c
  obtain ⟨htimers, htimers'⟩ := quiet_swapTimers c
  have hd : Connection.writeDone (Connection.dispatch { s.connection with request := request }) =
      (c, c.swapTimers ++ (if request.noReply then [] else [.asyncWrite request.response]) ++
        .writeTimerCancel :: c.start) := by
    cases hn : request.noReply with
    | true =>
      have hquiet : (c.swapTimers ++ .writeTimerCancel :: c.start).filterMap
          AsioOp.response? = [] := by
        simp only [List.filterMap_append, htimers, List.filterMap_cons, response?_writeTimerCancel,
          hstart, List.append_nil]
      have hdispatch : Connection.dispatch { s.connection with request := request } =
          (c, c.swapTimers ++ .writeTimerCancel :: c.start) := by
        simp only [Connection.dispatch, h, hn]
        rfl
      simp only [hdispatch, Connection.writeDone, hquiet, ↓reduceIte, List.append_nil]
    | false =>
      have hdispatch : Connection.dispatch { s.connection with request := request } =
          ({ s.connection with request := request },
            c.swapTimers ++ [.asyncWrite request.response]) := by
        simp only [Connection.dispatch, h, hn, Connection.doWrite, getResponse]
        rfl
      simp only [hdispatch, Connection.writeDone, List.filterMap_append, htimers]
      rfl
  refine ⟨?_, ?_, ?_, ?_⟩
  · rw [settle, hd]
  · rw [settle, if_pos h]
  · simp only [written, settle, hd, List.filterMap_append, htimers]
    cases request.noReply <;> simp [List.filterMap_cons, hstart]
  · simp only [stopped, settle, hd, List.any_append, htimers']
    cases request.noReply <;> simp [hstart']

theorem settle_reading (h : request.status ≠ .finished) :
    Reading s (s.settle request) request := by
  have hd : Connection.writeDone (Connection.dispatch { s.connection with request := request }) =
      ({ s.connection with request := request },
        if request.status = .quitting then [.managerStop] else [.asyncReadSome]) := by
    cases hs : request.status <;> first | exact absurd hs h | simp [Connection.dispatch, hs,
      Connection.writeDone, Connection.doRead, AsioOp.response?]
  refine ⟨?_, ?_, ?_, ?_⟩
  · rw [settle, hd]
  · rw [settle, if_neg h, List.append_nil]
  · simp only [written, settle, hd, List.filterMap_append]
    by_cases hq : request.status = .quitting <;> simp [hq, AsioOp.response?]
  · have hne : (AsioOp.asyncReadSome == .managerStop) = false := rfl
    simp only [stopped, settle, hd, List.any_append]
    by_cases hq : request.status = .quitting <;> simp [hq, hne]

/-! ## One read -/

variable {data : Bytes}

theorem read_exceeded (h : s.connection.request.exceeds data.length = true) :
    s.read data = .done (s.settle
      (s.connection.request.rejected (text "request size exceeded max bytes"))) := by
  rw [read, process, if_pos h]
  rfl

theorem read_of_loop (h : s.connection.request.exceeds data.length = false) :
    s.read data = s.settle <$> loop s.connection.request data := by
  rw [read, process, h]
  rfl

/-- A read that does not finish the request makes no store call. -/
theorem read_scanned (h : s.connection.request.exceeds data.length = false)
    (hscan : scan s.connection.request data = some request) :
    s.read data = .done (s.settle request) := by
  rw [s.read_of_loop h, loop_scanned hscan]
  rfl

/-- A read in which the loop comes to an answer. -/
theorem read_answered {q : Request} (h : s.connection.request.exceeds data.length = false)
    (hloop : loop s.connection.request data = prepareResponse q) :
    (s.read data).Returns fun s' => ∃ response, Answered s s' (q.answered response) := by
  rw [s.read_of_loop h, hloop, ← bind_pure_comp]
  apply (prepareResponse_returns q).bind
  intro q' hq
  obtain ⟨response, rfl⟩ := hq
  exact ⟨response, s.settle_finished rfl⟩

theorem serve_cons (h : s.stopped = false) (reads : List Bytes) :
    s.serve (data :: reads) = s.read data >>= fun s' => s'.serve reads := by
  rw [serve, h]
  rfl

theorem serve_stopped (h : s.stopped = true) (reads : List Bytes) : s.serve reads = .done s := by
  cases reads with
  | nil => rfl
  | cons data reads => rw [serve, if_pos h]; rfl

/-- Reads one after the other, with a pause. -/
theorem serve_append (a b : List Bytes) :
    s.serve (a ++ b) = s.serve a >>= fun s' => s'.serve b := by
  induction a generalizing s with
  | nil => rfl
  | cons data a ih =>
    cases hs : s.stopped with
    | true => rw [s.serve_stopped hs, s.serve_stopped hs, Prog.done_bind, s.serve_stopped hs]
    | false =>
      rw [List.cons_append, s.serve_cons hs, s.serve_cons hs, Prog.bind_assoc]
      simp only [ih]

end Session

/-! ## Every byte leaves a trace

No byte is read without a consequence: it finishes a request, or it stays in the
buffer, or it has moved the state machine on. -/

/-- Where `reset` leaves the parser. -/
def Request.Clean (r : Request) : Prop := r.status = .command ∧ r.buffer = [] ∧ r.keys = []

instance (r : Request) : Decidable r.Clean := inferInstanceAs (Decidable (_ ∧ _ ∧ _))

theorem clean_reset (r : Request) : r.reset.Clean := ⟨rfl, rfl, rfl⟩

theorem onWhiteSpace_ne_command {r r' : Request} (h : onWhiteSpace r = .next r') :
    r'.status ≠ .command := by
  intro hs
  have hr := (onWhiteSpace_continues h).command hs
  simp only [onWhiteSpace, hr] at h
  split at h
  · cases h
  · next status hstatus =>
    split at h
    · cases h
    · cases h
      exact statusFromCommand_ne hstatus hs

theorem onByte_not_clean {r r' : Request} {c : UInt8} (h : onByte r c = .next r') :
    ¬ r'.Clean := by
  intro hclean
  obtain ⟨hs, hb, -⟩ := hclean
  have hr := (onByte_continues h).command hs
  have hdata : r.status ≠ .data := by rw [hr]; decide
  cases hc : isWhiteSpace c with
  | true =>
    rw [onByte_whiteSpace hdata hc] at h
    exact onWhiteSpace_ne_command h hs
  | false =>
    rw [onByte_token hdata hc] at h
    cases h
    simp at hb

theorem scan_not_clean {r r' : Request} {c : UInt8} {data : Bytes}
    (h : scan r (c :: data) = some r') : ¬ r'.Clean := by
  induction data generalizing r c with
  | nil =>
    simp only [scan] at h
    cases hc : onByte r c with
    | next r₁ =>
      simp only [hc] at h
      cases h
      exact onByte_not_clean hc
    | respond r₁ => simp only [hc] at h; cases h
    | throw r₁ what => simp only [hc] at h; cases h
  | cons d data ih =>
    rw [scan] at h
    cases hc : onByte r c with
    | next r₁ => exact ih (by simpa only [hc] using h)
    | respond r₁ => simp only [hc] at h; cases h
    | throw r₁ what => simp only [hc] at h; cases h

/-- The loop goes through all of its input, or it finishes the request. -/
theorem loop_cases (r : Request) (data : Bytes) :
    (∃ r', scan r data = some r') ∨ (loop r data).Returns fun r' => r'.status = .finished := by
  induction data generalizing r with
  | nil => exact .inl ⟨r, rfl⟩
  | cons c data ih =>
    simp only [scan, loop]
    cases onByte r c with
    | next r' => exact ih r'
    | respond r' => exact .inr (prepareResponse_finished r')
    | throw r' what => exact .inr rfl

namespace Session

/-- A request was finished, or the parser is in the middle of one. -/
def Touched (s s' : Session) : Prop :=
  s.finished.length < s'.finished.length ∨ ¬ s'.connection.request.Clean

theorem settle_touched (s : Session) {request : Request}
    (h : request.status = .finished ∨ ¬ request.Clean) : Touched s (s.settle request) := by
  by_cases hf : request.status = .finished
  · refine .inl ?_
    rw [(s.settle_finished hf).finished, List.length_append]
    exact Nat.lt_succ_self _
  · refine .inr ?_
    rw [(s.settle_reading hf).connection]
    exact h.resolve_left hf

theorem read_touched (s : Session) {data : Bytes} (h : data ≠ []) :
    (s.read data).Returns (Touched s) := by
  obtain ⟨c, data, rfl⟩ := List.exists_cons_of_ne_nil h
  cases hx : s.connection.request.exceeds (c :: data).length with
  | true =>
    rw [s.read_exceeded hx]
    exact s.settle_touched (.inl rfl)
  | false =>
    rcases loop_cases s.connection.request (c :: data) with ⟨r', hscan⟩ | hfin
    · rw [s.read_scanned hx hscan]
      exact s.settle_touched (.inr (scan_not_clean hscan))
    · rw [s.read_of_loop hx, ← bind_pure_comp]
      exact hfin.bind fun r' h' => s.settle_touched (.inl h')

theorem settle_finished_grows (s : Session) (request : Request) :
    s.finished <+: (s.settle request).finished := List.prefix_append ..

theorem read_finished_grows (s : Session) (data : Bytes) :
    (s.read data).Returns fun s' => s.finished <+: s'.finished :=
  Prog.returns_map fun request => s.settle_finished_grows request

theorem serve_finished_grows (s : Session) (reads : List Bytes) :
    (s.serve reads).Returns fun s' => s.finished <+: s'.finished := by
  induction reads generalizing s with
  | nil => exact List.prefix_rfl
  | cons data reads ih =>
    cases hs : s.stopped with
    | true => rw [s.serve_stopped hs]; exact List.prefix_rfl
    | false =>
      rw [s.serve_cons hs]
      exact (s.read_finished_grows data).bind fun s₁ h₁ =>
        (ih s₁).mono fun s' h' => h₁.trans h'

/-- Whatever follows a clean parser, some of it is finished or left in the parser. -/
theorem serve_touched (s : Session) {reads : List Bytes} (hne : ∀ data ∈ reads, data ≠ [])
    (h : s.stopped = false ∧ reads ≠ [] ∨ ¬ s.connection.request.Clean) :
    (s.serve reads).Returns (Touched s) := by
  induction reads generalizing s with
  | nil => exact .inr (h.resolve_left fun h => h.2 rfl)
  | cons data reads ih =>
    cases hs : s.stopped with
    | true =>
      rw [s.serve_stopped hs]
      exact .inr (h.resolve_left fun h => by rw [hs] at h; cases h.1)
    | false =>
      rw [s.serve_cons hs]
      have hread := (s.read_touched (hne data (by simp))).and (s.read_finished_grows data)
      refine hread.bind fun s₁ ⟨h₁, hprefix⟩ => ?_
      rcases h₁ with hlt | hdirty
      · refine (s₁.serve_finished_grows reads).mono fun s' h' => .inl ?_
        exact Nat.lt_of_lt_of_le hlt h'.length_le
      · apply (ih s₁ (fun d hd => hne d (by simp [hd])) (.inr hdirty)).mono
        intro s' h'
        rcases h' with hlt | hdirty'
        · exact .inl (Nat.lt_of_le_of_lt hprefix.length_le hlt)
        · exact .inr hdirty'

end Session

end Quitsies.Tcp
