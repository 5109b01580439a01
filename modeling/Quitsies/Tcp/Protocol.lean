import Quitsies.Tcp.Asio
import Quitsies.Tcp.Rejection

/-!
# The protocol of a connection

The completion handlers call each other and run in whatever order `asio` completes
what they started. One operation on the socket is outstanding at a time, and it
says how far the request is: a read while it is parsed, a write while its response
is sent.
-/

namespace Quitsies.Tcp

open Text Interaction Db

/-- `process` may be called on the request. -/
def Parsing (r : Request) : Prop := r.status ≠ .finished ∧ r.status ≠ .quitting

/-- The request has this response, and its client wants it. -/
structure Answering (r : Request) (response : Bytes) : Prop where
  finished : r.status = .finished
  reply : r.noReply = false
  response_eq : r.response = response

/-- What a connection that has been started is waiting for. -/
structure Protocol (s : Hosted) : Prop where
  one : s.reading + s.writing.length ≤ 1
  busy : s.started = true → s.stopped = false → s.reading + s.writing.length = 1
  answering : ∀ response ∈ s.writing, Answering s.connection.request response
  parsing : 0 < s.reading → Parsing s.connection.request
  sound : s.threw = false
  idle : s.started = false → s.reading = 0 ∧ s.writing = [] ∧ Parsing s.connection.request

/-! ## What one handler starts -/

/-- What the handler of the one outstanding operation leaves behind. An aborted
operation of a stopped connection may leave nothing. -/
structure Turn (stopped : Bool) (done : Connection × List AsioOp) : Prop where
  one : reads done.2 + (responses done.2).length ≤ 1
  busy : stopped = false → stops done.2 = false → reads done.2 + (responses done.2).length = 1
  answering : ∀ response ∈ responses done.2, Answering done.1.request response
  parsing : 0 < reads done.2 → Parsing done.1.request
  sound : throws done.2 = false

/-- A handler that only reads on. -/
theorem turn_reading (b : Bool) {c : Connection} {ops : List AsioOp} (hc : Parsing c.request)
    (hr : reads ops = 1) (hw : responses ops = []) (ht : throws ops = false) :
    Turn b (c, ops) where
  one := by rw [hr, hw]; exact Nat.le_refl 1
  busy _ _ := by rw [hr, hw]; rfl
  answering := by rw [hw]; nofun
  parsing _ := hc
  sound := ht

theorem turn_stop (b : Bool) (c : Connection) : Turn b (c, [.managerStop]) where
  one := Nat.zero_le 1
  busy _ hs := absurd hs (show stops [.managerStop] ≠ false by decide)
  answering := nofun
  parsing h := absurd h (Nat.lt_irrefl 0)
  sound := rfl

theorem turn_aborted (c : Connection) : Turn true (c, []) where
  one := Nat.zero_le 1
  busy := nofun
  answering := nofun
  parsing h := absurd h (Nat.lt_irrefl 0)
  sound := rfl

variable (c : Connection)

theorem reads_start : reads c.start = 1 := by
  unfold Connection.start Connection.doRead
  split <;> rfl

theorem throws_start : throws c.start = false := by
  unfold Connection.start Connection.doRead
  split <;> rfl

theorem reads_swapTimers : reads c.swapTimers = 0 := by
  unfold Connection.swapTimers
  split <;> rfl

theorem throws_swapTimers : throws c.swapTimers = false := by
  unfold Connection.swapTimers
  split <;> rfl

theorem parsing_reset (r : Request) : Parsing r.reset := ⟨nofun, nofun⟩

/-- `start` on a request that is not parsed yet. -/
theorem turn_start (b : Bool) (h : Parsing c.request) : Turn b (c, c.start) :=
  turn_reading b h (reads_start c) (Session.quiet_start c).1 (throws_start c)

/-- `start` for the next request, after timers were cancelled or waited on. -/
theorem turn_restart (b : Bool) {ops : List AsioOp} (h : Parsing c.request) (hr : reads ops = 0)
    (hw : responses ops = []) (ht : throws ops = false) : Turn b (c, ops ++ c.start) := by
  apply turn_reading b h
  · rw [reads_append, hr, reads_start]
  · rw [responses_append, hw]
    exact (Session.quiet_start c).1
  · rw [throws_append, ht, throws_start]
    rfl

/-- A finished request whose client wants its response. -/
theorem turn_write (b : Bool) (hf : c.request.status = .finished)
    (hn : c.request.noReply = false) : Turn b (c, c.swapTimers ++ c.doWrite) := by
  have hwrite : c.doWrite = [.asyncWrite c.request.response] := by
    simp [Connection.doWrite, getResponse, hf]
  have hr : reads (c.swapTimers ++ c.doWrite) = 0 := by
    rw [reads_append, reads_swapTimers, hwrite]
    rfl
  have hw : responses (c.swapTimers ++ c.doWrite) = [c.request.response] := by
    rw [responses_append, hwrite]
    exact congrArg (· ++ [c.request.response]) (Session.quiet_swapTimers c).1
  refine ⟨?_, ?_, ?_, ?_, ?_⟩
  · show reads (c.swapTimers ++ c.doWrite) + (responses (c.swapTimers ++ c.doWrite)).length ≤ 1
    rw [hr, hw]
    exact Nat.le_refl 1
  · intro _ _
    show reads (c.swapTimers ++ c.doWrite) + (responses (c.swapTimers ++ c.doWrite)).length = 1
    rw [hr, hw]
    rfl
  · intro response hresponse
    rw [hw] at hresponse
    exact ⟨hf, hn, (List.mem_singleton.mp hresponse).symm⟩
  · intro hpos
    rw [hr] at hpos
    omega
  · show throws (c.swapTimers ++ c.doWrite) = false
    rw [throws_append, throws_swapTimers, hwrite]
    rfl

theorem turn_dispatch (b : Bool) : Turn b c.dispatch := by
  have going (hf : c.request.status ≠ .finished) (hq : c.request.status ≠ .quitting) :
      Turn b (c, Connection.doRead) := turn_reading b ⟨hf, hq⟩ rfl rfl rfl
  unfold Connection.dispatch
  split
  · next hf =>
    cases hn : c.request.noReply with
    | true =>
      -- the answer is dropped: both timers are cancelled and the next request begins
      let c' : Connection := { c with request := c.request.reset }
      show Turn b (c', c'.swapTimers ++ .writeTimerCancel :: c'.start)
      rw [List.append_cons]
      apply turn_restart c' b (parsing_reset c.request)
      · rw [reads_append, reads_swapTimers]
        rfl
      · rw [responses_append]
        exact congrArg (· ++ []) (Session.quiet_swapTimers _).1
      · rw [throws_append, throws_swapTimers]
        rfl
    | false => exact turn_write c b hf hn
  · exact turn_stop b c
  · next hf hq => exact going hf hq

theorem turn_onRead {completion : ReadCompletion} {events : List StoreEvent} {b : Bool}
    {done : Connection × List AsioOp} (h : (c.onRead completion).Performs events done)
    (hb : completion = .aborted → b = true) : Turn b done := by
  cases completion with
  | bytes data =>
    rw [Connection.onRead_bytes, Prog.performs_map] at h
    obtain ⟨request, -, rfl⟩ := h
    exact turn_dispatch { c with request := request } b
  | aborted =>
    obtain ⟨-, rfl⟩ := Prog.performs_done.mp h
    rw [hb rfl]
    exact turn_aborted c
  | failed =>
    obtain ⟨-, rfl⟩ := Prog.performs_done.mp h
    exact turn_stop b c

theorem turn_onWrite {completion : WriteCompletion} {b : Bool}
    (hb : completion = .aborted → b = true) : Turn b (c.onWrite completion) := by
  cases completion with
  | written =>
    have hcancel : reads [.writeTimerCancel] = 0 := rfl
    exact turn_restart { c with request := c.request.reset } b (parsing_reset c.request) hcancel
      rfl rfl
  | aborted =>
    rw [hb rfl]
    exact turn_aborted c
  | failed => exact turn_stop b c

/-! ## Steps -/

variable {due : Timer → Nat → Prop} {s s' : Hosted}

/-- The one outstanding operation has completed; its handler has run. -/
theorem Protocol.turn {done : Connection × List AsioOp} (hr : s.reading = 0)
    (hw : s.writing = []) (hthrew : s.threw = false) (hstarted : s.started = true)
    (h : Turn s.stopped done) : Protocol (s.settle done) := by
  have hp := Hosted.settle_performed s done
  have hreading : (s.settle done).reading = reads done.2 := by
    rw [hp.reading, hr, Nat.zero_add]
  have hwriting : (s.settle done).writing = responses done.2 := by
    rw [hp.writing, hw, List.nil_append]
  refine ⟨?_, ?_, ?_, ?_, ?_, ?_⟩
  · rw [hreading, hwriting]
    exact h.one
  · intro _ hstopped
    rw [hp.stopped, Bool.or_eq_false_iff] at hstopped
    rw [hreading, hwriting]
    exact h.busy hstopped.1 hstopped.2
  · rw [hwriting, hp.connection]
    exact h.answering
  · rw [hreading, hp.connection]
    exact h.parsing
  · rw [hp.threw, hthrew, h.sound]
    rfl
  · intro hidle
    rw [hp.started, hstarted] at hidle
    cases hidle

/-- Completing a read leaves nothing outstanding, and so does completing a write. -/
theorem Protocol.read_done (h : Protocol s) (hr : 0 < s.reading) :
    s.reading - 1 = 0 ∧ s.writing = [] := by
  have hone := h.one
  refine ⟨by omega, ?_⟩
  apply List.eq_nil_of_length_eq_zero
  omega

theorem Protocol.write_done (h : Protocol s) {response : Bytes} {rest : List Bytes}
    (hw : s.writing = response :: rest) : s.reading = 0 ∧ rest = [] := by
  have hone := h.one
  rw [hw, List.length_cons] at hone
  refine ⟨by omega, ?_⟩
  apply List.eq_nil_of_length_eq_zero
  omega

/-- A connection with something outstanding has been started. -/
theorem Protocol.started (h : Protocol s) (hb : 0 < s.reading ∨ s.writing ≠ []) :
    s.started = true := by
  cases hs : s.started with
  | true => rfl
  | false =>
    obtain ⟨hr, hw, -⟩ := h.idle hs
    rcases hb with hb | hb
    · omega
    · exact absurd hw hb

theorem Protocol.readTimer (h : Protocol s) (t : Timer) : Protocol { s with readTimer := t } :=
  ⟨h.one, h.busy, h.answering, h.parsing, h.sound, h.idle⟩

theorem Protocol.writeTimer (h : Protocol s) (t : Timer) : Protocol { s with writeTimer := t } :=
  ⟨h.one, h.busy, h.answering, h.parsing, h.sound, h.idle⟩

/-- The handler of a timer starts nothing on the socket. -/
theorem Protocol.onTimer (h : Protocol s) (cancelled : Bool) :
    Protocol (s.settle (s.connection, Connection.onTimer cancelled)) := by
  cases cancelled with
  | true => exact h
  | false => exact ⟨h.one, nofun, h.answering, h.parsing, h.sound, h.idle⟩

theorem Protocol.step {l : Happening} (h : Protocol s) (hs : Hosted.Step due s l s') :
    Protocol s' := by
  cases hs with
  | tick _ => exact ⟨h.one, h.busy, h.answering, h.parsing, h.sound, h.idle⟩
  | start hstarted =>
    obtain ⟨hr, hw, hp⟩ := h.idle hstarted
    exact Protocol.turn hr hw h.sound rfl (turn_start _ _ hp)
  | read hr _ _ hdone =>
    obtain ⟨hr', hw⟩ := h.read_done hr
    exact Protocol.turn hr' hw h.sound (h.started (.inl hr)) (turn_onRead _ hdone nofun)
  | readFailed hr hdone =>
    obtain ⟨hr', hw⟩ := h.read_done hr
    exact Protocol.turn hr' hw h.sound (h.started (.inl hr)) (turn_onRead _ hdone nofun)
  | readAborted hr hstopped hdone =>
    obtain ⟨hr', hw⟩ := h.read_done hr
    exact Protocol.turn hr' hw h.sound (h.started (.inl hr))
      (turn_onRead _ hdone fun _ => hstopped)
  | written hw =>
    obtain ⟨hr, hrest⟩ := h.write_done hw
    exact Protocol.turn hr hrest h.sound (h.started (.inr (by rw [hw]; nofun)))
      (turn_onWrite _ nofun)
  | writeFailed hw =>
    obtain ⟨hr, hrest⟩ := h.write_done hw
    exact Protocol.turn hr hrest h.sound (h.started (.inr (by rw [hw]; nofun)))
      (turn_onWrite _ nofun)
  | writeAborted hw hstopped =>
    obtain ⟨hr, hrest⟩ := h.write_done hw
    exact Protocol.turn hr hrest h.sound (h.started (.inr (by rw [hw]; nofun)))
      (turn_onWrite _ fun _ => hstopped)
  | readTimer _ _ => exact (h.readTimer s.readTimer.fired).onTimer false
  | readTimerCancelled _ => exact (h.readTimer s.readTimer.drained).onTimer true
  | writeTimer _ _ => exact (h.writeTimer s.writeTimer.fired).onTimer false
  | writeTimerCancelled _ => exact (h.writeTimer s.writeTimer.drained).onTimer true
  | stop => exact ⟨h.one, nofun, h.answering, h.parsing, h.sound, h.idle⟩

theorem read_outstanding {data : Bytes} {events : List StoreEvent}
    (hs : Hosted.Step due s (.read data events) s') : 0 < s.reading := by
  cases hs with
  | read hpos _ _ _ => exact hpos

/-! ## After a `quit` -/

/-- The client has quit: nothing is left to read or to write. -/
def Quit (s : Hosted) : Prop :=
  Protocol s ∧ s.connection.request.status = .quitting

theorem Quit.silent (h : Quit s) : s.reading = 0 ∧ s.writing = [] := by
  constructor
  · apply Nat.eq_zero_of_not_pos
    intro hr
    exact (h.1.parsing hr).2 h.2
  · apply List.eq_nil_iff_forall_not_mem.mpr
    intro response hresponse
    have hf := (h.1.answering response hresponse).finished
    rw [h.2] at hf
    cases hf

/-- A connection whose client has quit only runs timers. -/
theorem Quit.step {l : Happening} (h : Quit s) (hs : Hosted.Step due s l s') :
    l.calls = [] ∧ Quit s' := by
  have hprotocol := h.1.step hs
  obtain ⟨hr, hw⟩ := h.silent
  cases hs with
  | start hstarted => exact absurd h.2 (h.1.idle hstarted).2.2.2
  | read hpos _ _ _ | readFailed hpos _ | readAborted hpos _ _ => omega
  | written he | writeFailed he | writeAborted he _ =>
    rw [hw] at he
    cases he
  | tick _ | readTimer _ _ | readTimerCancelled _ | writeTimer _ _ | writeTimerCancelled _ | stop =>
    exact ⟨rfl, hprotocol, h.2⟩

theorem dispatch_quitting {c : Connection} (h : c.dispatch.1.request.status = .quitting) :
    c.request.status = .quitting := by
  unfold Connection.dispatch at h
  split at h
  · next hf =>
    split at h
    · cases h
    · exact absurd (hf.symm.trans h) nofun
  · assumption
  · exact h

/-- The read that finds the `quit` makes no store call. -/
theorem quit_step {l : Happening} (hs : Hosted.Step due s l s')
    (hq : s'.connection.request.status = .quitting) : l.calls = [] := by
  cases hs with
  | read hpos _ _ hdone =>
    rw [Connection.onRead_bytes, Prog.performs_map] at hdone
    obtain ⟨request, hrequest, rfl⟩ := hdone
    rw [(Hosted.settle_performed _ _).connection] at hq
    have hstatus : request.status = .quitting := dispatch_quitting hq
    rcases process_performs hrequest with he | ⟨r', hr'⟩
    · exact he
    · have hf := (prepareResponse_finished r').of_performs hr'
      rw [hstatus] at hf
      cases hf
  | _ => rfl

/-! ## Runs -/

theorem protocol_construct (db : Bool) (command : CommandType) (maxReqSizeBytes : Nat)
    (readTimeout writeTimeout : Int) (now : Nat) : Protocol
      (.construct (.construct db command maxReqSizeBytes readTimeout writeTimeout) now) where
  one := Nat.zero_le 1
  busy := nofun
  answering := nofun
  parsing := nofun
  sound := rfl
  idle _ := ⟨rfl, rfl, nofun, nofun⟩

theorem Protocol.run {s₀ : Hosted} {ts : List (Transition Hosted Happening)} (h : Protocol s₀)
    (hrun : Run (Hosted.Step due) s₀ ts s) : Protocol s :=
  hrun.invariant h fun _ _ _ hp hs => hp.step hs

/-- What a run does after the client has quit. -/
theorem Quit.run {s₀ : Hosted} {ts : List (Transition Hosted Happening)} (h : Quit s₀)
    (hrun : Run (Hosted.Step due) s₀ ts s) :
    ∀ t ∈ ts, t.label.calls = [] ∧ t.after.writing = [] := by
  intro t ht
  obtain ⟨ts₁, hbefore, hs, -⟩ := hrun.of_mem ht
  have hquit : Quit t.before := hbefore.invariant h fun _ _ _ hq hs => (hq.step hs).2
  obtain ⟨hcalls, hafter⟩ := hquit.step hs
  exact ⟨hcalls, hafter.silent.2⟩

/-- **Connection protocol invariant**: in whatever order reads, writes and timers
complete. The exception of `get_response` is `threw`. -/
theorem connection_protocol (due : Timer → Nat → Prop) {db : Bool} {command : CommandType}
    {maxReqSizeBytes : Nat} {readTimeout writeTimeout : Int} {now : Nat}
    {ts : List (Transition Hosted Happening)} {s : Hosted}
    (hrun : Run (Hosted.Step due)
      (.construct (.construct db command maxReqSizeBytes readTimeout writeTimeout) now) ts s) :
    Protocol s ∧
      (∀ t ∈ ts, ∀ data events, t.label = .read data events →
        Parsing t.before.connection.request) ∧
      ∀ ts₁ t ts₂, ts = ts₁ ++ t :: ts₂ → t.after.connection.request.status = .quitting →
        t.label.calls = [] ∧ t.after.writing = [] ∧
          ∀ u ∈ ts₂, u.label.calls = [] ∧ u.after.writing = [] := by
  have h₀ := protocol_construct db command maxReqSizeBytes readTimeout writeTimeout now
  refine ⟨h₀.run hrun, ?_, ?_⟩
  · intro t ht data events hl
    obtain ⟨ts₁, hbefore, hs, -⟩ := hrun.of_mem ht
    rw [hl] at hs
    exact (h₀.run hbefore).parsing (read_outstanding hs)
  · intro ts₁ t ts₂ hts hq
    subst hts
    obtain ⟨hbefore, hs, -⟩ := hrun.split
    have hprotocol := h₀.run hbefore
    have hquit : Quit t.after := ⟨hprotocol.step hs, hq⟩
    exact ⟨quit_step hs hq, hquit.silent.2, hquit.run hrun.suffix⟩

/-- A `ping` that is answered, and a `quit`. -/
theorem connection_protocol_quit :
    ∃ ts s, Run (Hosted.Step Timer.Due) (.construct (.construct true .none 0 100 100) 0) ts s ∧
      ts.length = 4 ∧ s.connection.request.status = .quitting ∧ Protocol s := by
  have h₁ := Run.start.snoc (.start rfl : Hosted.Step Timer.Due
    (.construct (.construct true .none 0 100 100) 0) .start _)
  have h₂ := h₁.snoc (.read_map (text "ping\n") (fun _ => none) (by decide) (by decide) (by decide))
  have h₃ := h₂.snoc (.written rfl)
  have h₄ := h₃.snoc (.read_map (text "quit\n") (fun _ => none) (by decide) (by decide) (by decide))
  exact ⟨_, _, h₄, rfl, by decide, (connection_protocol _ h₄).1⟩

end Quitsies.Tcp
