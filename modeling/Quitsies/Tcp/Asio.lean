import Quitsies.Interaction.Run
import Quitsies.Tcp.Session

/-!
# A connection on its `io_service`

What `asio` keeps for a connection while its handlers run: the operations on the
socket that have been started and not completed, the waits on the two timers and
the clock. A step completes one operation and runs its handler. When a wait may
complete is a parameter, `due`.
-/

namespace Quitsies.Tcp

open Text Interaction Db

/-- A `deadline_timer`. It is given its expiry once, by its constructor; `cancel`
completes the pending waits and leaves the expiry alone. A wait is pending here until
its handler is called. -/
structure Timer where
  duration : Int
  expiry : Int
  waits : Nat
  cancelled : Nat

namespace Timer

def construct (now : Nat) (duration : Int) : Timer := ⟨duration, now + duration, 0, 0⟩

def asyncWait (t : Timer) : Timer := { t with waits := t.waits + 1 }

def cancel (t : Timer) : Timer := { t with waits := 0, cancelled := t.cancelled + t.waits }

/-- The timer once the handler of a wait that was not cancelled has been called. -/
def fired (t : Timer) : Timer := { t with waits := t.waits - 1 }

def drained (t : Timer) : Timer := { t with cancelled := t.cancelled - 1 }

/-- A wait completes without an error when the clock has reached the expiry. -/
def Due (t : Timer) (clock : Nat) : Prop := t.expiry ≤ clock

instance (t : Timer) (clock : Nat) : Decidable (t.Due clock) :=
  inferInstanceAs (Decidable (t.expiry ≤ clock))

end Timer

/-- The handler of both timers, which does nothing for a wait that was cancelled. -/
def Connection.onTimer (cancelled : Bool) : List AsioOp := if cancelled then [] else [.managerStop]

/-- A connection and what `asio` keeps for it. `began` is the time of the last wait
on the read timer, `sending` that of the last write. -/
structure Hosted where
  connection : Connection
  started : Bool
  reading : Nat
  writing : List Bytes
  readTimer : Timer
  writeTimer : Timer
  stopped : Bool
  threw : Bool
  clock : Nat
  constructed : Nat
  began : Nat
  sending : Nat

namespace Hosted

/-- The constructor of `connection`, at a time. -/
def construct (c : Connection) (now : Nat) : Hosted where
  connection := c
  started := false
  reading := 0
  writing := []
  readTimer := .construct now c.readTimeout
  writeTimer := .construct now c.writeTimeout
  stopped := false
  threw := false
  clock := now
  constructed := now
  began := now
  sending := now

/-- An operation that a handler starts. -/
def perform (s : Hosted) : AsioOp → Hosted
  | .asyncReadSome => { s with reading := s.reading + 1 }
  | .asyncWrite response => { s with writing := s.writing ++ [response], sending := s.clock }
  | .readTimerWait => { s with readTimer := s.readTimer.asyncWait, began := s.clock }
  | .readTimerCancel => { s with readTimer := s.readTimer.cancel }
  | .writeTimerWait => { s with writeTimer := s.writeTimer.asyncWait }
  | .writeTimerCancel => { s with writeTimer := s.writeTimer.cancel }
  | .managerStop => { s with stopped := true }
  | .threw _ => { s with threw := true }

/-- What a handler has computed and started. -/
def settle (s : Hosted) (done : Connection × List AsioOp) : Hosted :=
  done.2.foldl perform { s with connection := done.1 }

/-- The size of `_buffer`. -/
def bufferSize : Nat := 8192

end Hosted

/-! ## What a handler started -/

section Started

def reads (ops : List AsioOp) : Nat := ops.count .asyncReadSome

def responses (ops : List AsioOp) : List Bytes := ops.filterMap AsioOp.response?

def stops (ops : List AsioOp) : Bool := ops.any (· == .managerStop)

def AsioOp.isThrew : AsioOp → Bool
  | .threw _ => true
  | _ => false

def throws (ops : List AsioOp) : Bool := ops.any AsioOp.isThrew

variable (ops ops' : List AsioOp)

@[simp] theorem reads_append : reads (ops ++ ops') = reads ops + reads ops' := List.count_append

@[simp] theorem responses_append : responses (ops ++ ops') = responses ops ++ responses ops' :=
  List.filterMap_append

@[simp] theorem stops_append : stops (ops ++ ops') = (stops ops || stops ops') := List.any_append

@[simp] theorem throws_append : throws (ops ++ ops') = (throws ops || throws ops') :=
  List.any_append

namespace Hosted

/-- Waits come and go; what the constructor gave the timer stays. -/
structure SameTimer (t t' : Timer) : Prop where
  duration : t'.duration = t.duration
  expiry : t'.expiry = t.expiry

theorem SameTimer.trans {t t' t'' : Timer} (h : SameTimer t t') (h' : SameTimer t' t'') :
    SameTimer t t'' := ⟨h'.duration.trans h.duration, h'.expiry.trans h.expiry⟩

/-- What the operations of a handler change, and what they leave alone. -/
structure Performed (ops : List AsioOp) (s s' : Hosted) : Prop where
  connection : s'.connection = s.connection
  started : s'.started = s.started
  clock : s'.clock = s.clock
  constructed : s'.constructed = s.constructed
  reading : s'.reading = s.reading + reads ops
  writing : s'.writing = s.writing ++ responses ops
  stopped : s'.stopped = (s.stopped || stops ops)
  threw : s'.threw = (s.threw || throws ops)
  readTimer : SameTimer s.readTimer s'.readTimer
  writeTimer : SameTimer s.writeTimer s'.writeTimer
  began : s'.began = s.began ∨ s'.began = s.clock
  sending : s'.sending = s.sending ∨ s'.sending = s.clock

theorem Performed.append {s s' s'' : Hosted} (h : Performed ops s s')
    (h' : Performed ops' s' s'') : Performed (ops ++ ops') s s'' where
  connection := h'.connection.trans h.connection
  started := h'.started.trans h.started
  clock := h'.clock.trans h.clock
  constructed := h'.constructed.trans h.constructed
  reading := by rw [h'.reading, h.reading, reads_append, Nat.add_assoc]
  writing := by rw [h'.writing, h.writing, responses_append, List.append_assoc]
  stopped := by rw [h'.stopped, h.stopped, stops_append, Bool.or_assoc]
  threw := by rw [h'.threw, h.threw, throws_append, Bool.or_assoc]
  readTimer := h.readTimer.trans h'.readTimer
  writeTimer := h.writeTimer.trans h'.writeTimer
  began := by
    have hc := h.clock
    have hb := h.began
    have hb' := h'.began
    omega
  sending := by
    have hc := h.clock
    have hs := h.sending
    have hs' := h'.sending
    omega

theorem performed_nil (s : Hosted) : Performed [] s s where
  connection := rfl
  started := rfl
  clock := rfl
  constructed := rfl
  reading := rfl
  writing := (List.append_nil _).symm
  stopped := (Bool.or_false _).symm
  threw := (Bool.or_false _).symm
  readTimer := ⟨rfl, rfl⟩
  writeTimer := ⟨rfl, rfl⟩
  began := .inl rfl
  sending := .inl rfl

theorem performed_one (s : Hosted) (op : AsioOp) : Performed [op] s (s.perform op) := by
  cases op <;> constructor <;>
    first | rfl | exact ⟨rfl, rfl⟩ | exact (List.append_nil _).symm |
      exact (Bool.or_false _).symm | exact (Bool.or_true _).symm | exact .inl rfl | exact .inr rfl

theorem performed (s : Hosted) : Performed ops s (ops.foldl perform s) := by
  induction ops generalizing s with
  | nil => exact performed_nil s
  | cons op ops ih => exact (performed_one s op).append [op] ops (ih _)

theorem settle_performed (s : Hosted) (done : Connection × List AsioOp) :
    Performed done.2 { s with connection := done.1 } (s.settle done) := performed ..

end Hosted

end Started

/-- What happens to a connection. A read carries the store calls of its handler. -/
inductive Happening where
  | tick
  | start
  | read (data : Bytes) (events : List StoreEvent)
  | readFailed
  | readAborted
  | written
  | writeFailed
  | writeAborted
  | readTimer
  | readTimerCancelled
  | writeTimer
  | writeTimerCancelled
  | stop

/-- The store calls of a step. -/
def Happening.calls : Happening → List StoreEvent
  | .read _ events => events
  | _ => []

namespace Hosted

/-- One step. Each operation completes once, and with `operation_aborted` only on a
socket that has been closed; `stop` is a call from outside the connection. -/
inductive Step (due : Timer → Nat → Prop) : Hosted → Happening → Hosted → Prop
  | tick {s : Hosted} {now : Nat} : s.clock ≤ now → Step due s .tick { s with clock := now }
  | start {s : Hosted} : s.started = false →
      Step due s .start ({ s with started := true }.settle (s.connection, s.connection.start))
  | read {s : Hosted} {data : Bytes} {events : List StoreEvent} {done : Connection × List AsioOp} :
      0 < s.reading → 0 < data.length → data.length ≤ bufferSize →
      (s.connection.onRead (.bytes data)).Performs events done →
      Step due s (.read data events) ({ s with reading := s.reading - 1 }.settle done)
  | readFailed {s : Hosted} {done : Connection × List AsioOp} : 0 < s.reading →
      (s.connection.onRead .failed).Performs [] done →
      Step due s .readFailed ({ s with reading := s.reading - 1 }.settle done)
  | readAborted {s : Hosted} {done : Connection × List AsioOp} : 0 < s.reading →
      s.stopped = true → (s.connection.onRead .aborted).Performs [] done →
      Step due s .readAborted ({ s with reading := s.reading - 1 }.settle done)
  | written {s : Hosted} {response : Bytes} {rest : List Bytes} : s.writing = response :: rest →
      Step due s .written ({ s with writing := rest }.settle (s.connection.onWrite .written))
  | writeFailed {s : Hosted} {response : Bytes} {rest : List Bytes} :
      s.writing = response :: rest →
      Step due s .writeFailed ({ s with writing := rest }.settle (s.connection.onWrite .failed))
  | writeAborted {s : Hosted} {response : Bytes} {rest : List Bytes} :
      s.writing = response :: rest → s.stopped = true →
      Step due s .writeAborted ({ s with writing := rest }.settle (s.connection.onWrite .aborted))
  | readTimer {s : Hosted} : 0 < s.readTimer.waits → due s.readTimer s.clock →
      Step due s .readTimer
        ({ s with readTimer := s.readTimer.fired }.settle (s.connection, Connection.onTimer false))
  | readTimerCancelled {s : Hosted} : 0 < s.readTimer.cancelled →
      Step due s .readTimerCancelled
        ({ s with readTimer := s.readTimer.drained }.settle (s.connection, Connection.onTimer true))
  | writeTimer {s : Hosted} : 0 < s.writeTimer.waits → due s.writeTimer s.clock →
      Step due s .writeTimer
        ({ s with writeTimer := s.writeTimer.fired }.settle
          (s.connection, Connection.onTimer false))
  | writeTimerCancelled {s : Hosted} : 0 < s.writeTimer.cancelled →
      Step due s .writeTimerCancelled
        ({ s with writeTimer := s.writeTimer.drained }.settle
          (s.connection, Connection.onTimer true))
  | stop {s : Hosted} : Step due s .stop { s with stopped := true }

end Hosted

/-- A read of a connection whose store is a map. -/
theorem Hosted.Step.read_map {due : Timer → Nat → Prop} {s : Hosted} (data : Bytes) (m : Contents)
    (hr : 0 < s.reading) (hpos : 0 < data.length) (hlen : data.length ≤ Hosted.bufferSize) :
    Hosted.Step due s
      (.read data ((s.connection.onRead (.bytes data)).runWith mapStore m).2.1)
      ({ s with reading := s.reading - 1 }.settle
        ((s.connection.onRead (.bytes data)).runWith mapStore m).1) :=
  .read hr hpos hlen (Prog.performs_runWith mapStore _ m)

/-! ## What no step changes -/

/-- The settings of a connection, which its handlers only read. -/
structure Connection.SameSettings (c c' : Connection) : Prop where
  maxBytes : c'.request.maxBytes = c.request.maxBytes
  readTimeout : c'.readTimeout = c.readTimeout
  writeTimeout : c'.writeTimeout = c.writeTimeout

namespace Connection

variable {c : Connection} {events : List StoreEvent} {done : Connection × List AsioOp}

theorem SameSettings.refl (c : Connection) : c.SameSettings c := ⟨rfl, rfl, rfl⟩

theorem SameSettings.trans {c c' c'' : Connection} (h : c.SameSettings c')
    (h' : c'.SameSettings c'') : c.SameSettings c'' where
  maxBytes := h'.maxBytes.trans h.maxBytes
  readTimeout := h'.readTimeout.trans h.readTimeout
  writeTimeout := h'.writeTimeout.trans h.writeTimeout

theorem process_config {r q : Request} {data : Bytes} (h : (process r data).Performs events q) :
    SameConfig r q := by
  unfold process at h
  split at h
  · obtain ⟨-, rfl⟩ := Prog.performs_done.mp h
    exact ⟨rfl, rfl⟩
  · exact (loop_config r data).of_performs h

theorem dispatch_settings (c : Connection) : c.SameSettings c.dispatch.1 := by
  unfold dispatch
  split
  · split <;> exact ⟨rfl, rfl, rfl⟩
  · exact .refl c
  · exact .refl c

theorem onRead_settings {completion : ReadCompletion}
    (h : (c.onRead completion).Performs events done) : c.SameSettings done.1 := by
  cases completion with
  | bytes data =>
    rw [onRead_bytes, Prog.performs_map] at h
    obtain ⟨request, hrequest, rfl⟩ := h
    have hread : c.SameSettings { c with request := request } :=
      ⟨(process_config hrequest).2, rfl, rfl⟩
    exact hread.trans (dispatch_settings _)
  | aborted | failed =>
    obtain ⟨-, rfl⟩ := Prog.performs_done.mp h
    exact .refl c

theorem onWrite_settings (c : Connection) (completion : WriteCompletion) :
    c.SameSettings (c.onWrite completion).1 := by
  cases completion <;> exact ⟨rfl, rfl, rfl⟩

end Connection

namespace Hosted

/-- What every step leaves as the constructor made it, and how it moves the times. -/
structure Frame (s s' : Hosted) : Prop where
  connection : s.connection.SameSettings s'.connection
  readTimer : SameTimer s.readTimer s'.readTimer
  writeTimer : SameTimer s.writeTimer s'.writeTimer
  constructed : s'.constructed = s.constructed
  clock : s.clock ≤ s'.clock
  began : s'.began = s.began ∨ s.clock ≤ s'.began
  sending : s'.sending = s.sending ∨ s.clock ≤ s'.sending

theorem Frame.refl (s : Hosted) : Frame s s :=
  ⟨.refl _, ⟨rfl, rfl⟩, ⟨rfl, rfl⟩, rfl, Nat.le_refl _, .inl rfl, .inl rfl⟩

theorem Frame.trans {s s' s'' : Hosted} (h : Frame s s') (h' : Frame s' s'') : Frame s s'' where
  connection := h.connection.trans h'.connection
  readTimer := h.readTimer.trans h'.readTimer
  writeTimer := h.writeTimer.trans h'.writeTimer
  constructed := h'.constructed.trans h.constructed
  clock := Nat.le_trans h.clock h'.clock
  began := by
    have hc := h.clock
    have hb := h.began
    have hb' := h'.began
    omega
  sending := by
    have hc := h.clock
    have hs := h.sending
    have hs' := h'.sending
    omega

/-- A step that takes a completed operation away and runs its handler. -/
theorem Frame.settle {s s' : Hosted} (h : Frame s s') {done : Connection × List AsioOp}
    (hdone : s.connection.SameSettings done.1) : Frame s (s'.settle done) := by
  have hp := settle_performed s' done
  have hc := h.clock
  have hclock : (s'.settle done).clock = s'.clock := hp.clock
  have hbegan : (s'.settle done).began = s'.began ∨ (s'.settle done).began = s'.clock := hp.began
  have hsending : (s'.settle done).sending = s'.sending ∨ (s'.settle done).sending = s'.clock :=
    hp.sending
  refine ⟨?_, h.readTimer.trans hp.readTimer, h.writeTimer.trans hp.writeTimer,
    hp.constructed.trans h.constructed, by omega, ?_, ?_⟩
  · rw [hp.connection]
    exact hdone
  · have hb := h.began
    omega
  · have hs := h.sending
    omega

theorem Step.frame {due : Timer → Nat → Prop} {s s' : Hosted} {l : Happening}
    (h : Step due s l s') : Frame s s' := by
  have same (t : Timer) : SameTimer t t := ⟨rfl, rfl⟩
  cases h with
  | tick hnow => exact ⟨.refl _, same _, same _, rfl, hnow, .inl rfl, .inl rfl⟩
  | stop => exact ⟨.refl _, same _, same _, rfl, Nat.le_refl _, .inl rfl, .inl rfl⟩
  | start _ =>
    apply Frame.settle
    · exact ⟨.refl _, same _, same _, rfl, Nat.le_refl _, .inl rfl, .inl rfl⟩
    · exact .refl s.connection
  | read _ _ _ hdone | readFailed _ hdone | readAborted _ _ hdone =>
    apply Frame.settle
    · exact ⟨.refl _, same _, same _, rfl, Nat.le_refl _, .inl rfl, .inl rfl⟩
    · exact Connection.onRead_settings hdone
  | written _ | writeFailed _ | writeAborted _ _ =>
    apply Frame.settle
    · exact ⟨.refl _, same _, same _, rfl, Nat.le_refl _, .inl rfl, .inl rfl⟩
    · exact Connection.onWrite_settings ..
  | readTimer _ _ | readTimerCancelled _ | writeTimer _ _ | writeTimerCancelled _ =>
    apply Frame.settle
    · exact ⟨.refl _, ⟨rfl, rfl⟩, ⟨rfl, rfl⟩, rfl, Nat.le_refl _, .inl rfl, .inl rfl⟩
    · exact .refl s.connection

theorem Frame.run {due : Timer → Nat → Prop} {s₀ s : Hosted}
    {ts : List (Transition Hosted Happening)} (hrun : Run (Step due) s₀ ts s) : Frame s₀ s :=
  hrun.invariant (.refl s₀) fun _ _ _ h hs => h.trans hs.frame

end Hosted

end Quitsies.Tcp
