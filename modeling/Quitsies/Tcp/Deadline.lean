import Mathlib.Order.Monotone.Basic
import Quitsies.Tcp.Protocol

/-!
# What the waits of a connection are for

A handler waits on a timer for the operation it starts on the socket and cancels the
wait for the one it has completed. The pending waits are those of the outstanding
operation, so that every connection has an end: the expiry of its timer, where it has
one.
-/

namespace Quitsies.Tcp

open Text Interaction Db

/-! ## The waits a handler leaves -/

/-- What an operation does to the pending waits of the read timer. -/
def AsioOp.readWaits (waits : Nat) : AsioOp → Nat
  | .readTimerWait => waits + 1
  | .readTimerCancel => 0
  | _ => waits

def AsioOp.writeWaits (waits : Nat) : AsioOp → Nat
  | .writeTimerWait => waits + 1
  | .writeTimerCancel => 0
  | _ => waits

/-- The waits for `n` operations under a timeout; there are none without one. -/
def waitsFor (timeout : Int) (n : Nat) : Nat := if 0 < timeout then n else 0

theorem waitsFor_zero (timeout : Int) : waitsFor timeout 0 = 0 := by
  unfold waitsFor
  split <;> rfl

theorem waitsFor_pos {timeout : Int} {n : Nat} (ht : 0 < timeout) (hn : 0 < n) :
    0 < waitsFor timeout n := by
  rw [waitsFor, if_pos ht]
  exact hn

/-- A handler leaves as many waits as it has started operations. -/
structure Arms (readWaits writeWaits : Nat) (done : Connection × List AsioOp) : Prop where
  read : done.2.foldl AsioOp.readWaits readWaits =
    waitsFor done.1.readTimeout (reads done.2)
  write : done.2.foldl AsioOp.writeWaits writeWaits =
    waitsFor done.1.writeTimeout (responses done.2).length

section Handlers

variable (c : Connection)

theorem arms_start : Arms 0 0 (c, c.start) := by
  by_cases hr : 0 < c.readTimeout
  · have hstart : c.start = [.asyncReadSome, .readTimerWait] := by
      simp [Connection.start, Connection.doRead, hr]
    rw [hstart]
    exact ⟨(if_pos hr).symm, (waitsFor_zero c.writeTimeout).symm⟩
  · have hstart : c.start = [.asyncReadSome] := by
      simp [Connection.start, Connection.doRead, hr]
    rw [hstart]
    exact ⟨(if_neg hr).symm, (waitsFor_zero c.writeTimeout).symm⟩

/-- What is left of the waits when the timers have been swapped. -/
theorem swapTimers_waits (waits : Nat) :
    c.swapTimers.foldl AsioOp.readWaits waits = 0 ∧
      c.swapTimers.foldl AsioOp.writeWaits 0 = waitsFor c.writeTimeout 1 := by
  by_cases hw : 0 < c.writeTimeout
  · have hswap : c.swapTimers = [.readTimerCancel, .writeTimerWait] := by
      simp [Connection.swapTimers, hw]
    rw [hswap]
    exact ⟨rfl, (if_pos hw).symm⟩
  · have hswap : c.swapTimers = [.readTimerCancel] := by
      simp [Connection.swapTimers, hw]
    rw [hswap]
    exact ⟨rfl, (if_neg hw).symm⟩

/-- `start` behind operations that start nothing and leave no waits. -/
theorem arms_restart (ops : List AsioOp) {readWaits writeWaits : Nat}
    (hreads : reads ops = 0) (hresponses : responses ops = [])
    (hread : ops.foldl AsioOp.readWaits readWaits = 0)
    (hwrite : ops.foldl AsioOp.writeWaits writeWaits = 0) :
    Arms readWaits writeWaits (c, ops ++ c.start) := by
  have hstart := arms_start c
  constructor
  · show (ops ++ c.start).foldl AsioOp.readWaits readWaits =
      waitsFor c.readTimeout (reads (ops ++ c.start))
    rw [List.foldl_append, hread, reads_append, hreads, Nat.zero_add]
    exact hstart.read
  · show (ops ++ c.start).foldl AsioOp.writeWaits writeWaits =
      waitsFor c.writeTimeout (responses (ops ++ c.start)).length
    rw [List.foldl_append, hwrite, responses_append, hresponses, List.nil_append]
    exact hstart.write

theorem arms_dispatch (hstops : stops c.dispatch.2 = false) :
    Arms (waitsFor c.readTimeout 1) 0 c.dispatch := by
  unfold Connection.dispatch at hstops ⊢
  split
  · next hf =>
    cases hn : c.request.noReply with
    | true =>
      let c' : Connection := { c with request := c.request.reset }
      obtain ⟨hread, hwrite⟩ := swapTimers_waits c' (waitsFor c.readTimeout 1)
      show Arms _ _ (c', c'.swapTimers ++ .writeTimerCancel :: c'.start)
      rw [List.append_cons]
      apply arms_restart
      · rw [reads_append, reads_swapTimers]
        rfl
      · rw [responses_append]
        exact congrArg (· ++ []) (Session.quiet_swapTimers _).1
      · rw [List.foldl_append, hread]
        rfl
      · rw [List.foldl_append]
        rfl
    | false =>
      obtain ⟨hread, hwrite⟩ := swapTimers_waits c (waitsFor c.readTimeout 1)
      have hdo : c.doWrite = [.asyncWrite c.request.response] := by
        simp [Connection.doWrite, getResponse, hf]
      have hresponses : responses c.swapTimers = [] := (Session.quiet_swapTimers c).1
      show Arms _ _ (c, c.swapTimers ++ c.doWrite)
      rw [hdo]
      constructor
      · rw [List.foldl_append, hread, reads_append, reads_swapTimers]
        exact (waitsFor_zero c.readTimeout).symm
      · rw [List.foldl_append, hwrite, responses_append, hresponses]
        rfl
  · next hq =>
    rw [hq] at hstops
    cases hstops
  · exact ⟨rfl, (waitsFor_zero c.writeTimeout).symm⟩

theorem arms_onRead {completion : ReadCompletion} {events : List StoreEvent}
    {done : Connection × List AsioOp} (h : (c.onRead completion).Performs events done)
    (hcompletion : completion ≠ .aborted) (hstops : stops done.2 = false) :
    Arms (waitsFor c.readTimeout 1) 0 done := by
  cases completion with
  | bytes data =>
    rw [Connection.onRead_bytes, Prog.performs_map] at h
    obtain ⟨request, -, rfl⟩ := h
    exact arms_dispatch { c with request := request } hstops
  | aborted => exact absurd rfl hcompletion
  | failed =>
    obtain ⟨-, rfl⟩ := Prog.performs_done.mp h
    cases hstops

theorem arms_onWrite {completion : WriteCompletion} (writeWaits : Nat)
    (hcompletion : completion ≠ .aborted) (hstops : stops (c.onWrite completion).2 = false) :
    Arms 0 writeWaits (c.onWrite completion) := by
  cases completion with
  | written =>
    exact arms_restart { c with request := c.request.reset } [.writeTimerCancel]
      rfl rfl rfl rfl
  | aborted => exact absurd rfl hcompletion
  | failed => cases hstops

end Handlers

namespace Hosted

theorem settle_waits (s : Hosted) (done : Connection × List AsioOp) :
    (s.settle done).readTimer.waits = done.2.foldl AsioOp.readWaits s.readTimer.waits ∧
      (s.settle done).writeTimer.waits = done.2.foldl AsioOp.writeWaits s.writeTimer.waits := by
  obtain ⟨c, ops⟩ := done
  unfold settle
  generalize hs₁ : ({ s with connection := c } : Hosted) = s₁
  have hread : s.readTimer = s₁.readTimer := by rw [← hs₁]
  have hwrite : s.writeTimer = s₁.writeTimer := by rw [← hs₁]
  rw [hread, hwrite]
  clear hs₁ hread hwrite
  induction ops generalizing s₁ with
  | nil => exact ⟨rfl, rfl⟩
  | cons op ops ih =>
    obtain ⟨hread, hwrite⟩ := ih (s₁.perform op)
    rw [List.foldl_cons, List.foldl_cons, List.foldl_cons, hread, hwrite]
    cases op <;> exact ⟨rfl, rfl⟩

end Hosted

/-! ## Waits that have expired -/

/-- A connection, and the waits of its timers that have expired and whose handlers are
queued. `cancel` takes back the waits that are pending, and no others. -/
structure Clocked where
  hosted : Hosted
  readExpired : Nat
  writeExpired : Nat

namespace Clocked

def construct (c : Connection) (now : Nat) : Clocked := ⟨.construct c now, 0, 0⟩

inductive Event where
  | handler (l : Happening)
  | readExpires
  | writeExpires

/-- One step. A wait expires in a step of its own, and its handler runs in a later one;
all else goes as it does for a connection whose timers never expire. -/
inductive Step (due : Timer → Nat → Prop) : Clocked → Event → Clocked → Prop
  | other {s s' : Hosted} {l : Happening} {re we : Nat} :
      Hosted.Step (fun _ _ => False) s l s' → Step due ⟨s, re, we⟩ (.handler l) ⟨s', re, we⟩
  | readExpires {s : Hosted} {re we : Nat} :
      0 < s.readTimer.waits → due s.readTimer s.clock →
      Step due ⟨s, re, we⟩ .readExpires ⟨{ s with readTimer := s.readTimer.fired }, re + 1, we⟩
  | writeExpires {s : Hosted} {re we : Nat} :
      0 < s.writeTimer.waits → due s.writeTimer s.clock →
      Step due ⟨s, re, we⟩ .writeExpires
        ⟨{ s with writeTimer := s.writeTimer.fired }, re, we + 1⟩
  | readTimer {s : Hosted} {re we : Nat} :
      Step due ⟨s, re + 1, we⟩ (.handler .readTimer)
        ⟨s.settle (s.connection, Connection.onTimer false), re, we⟩
  | writeTimer {s : Hosted} {re we : Nat} :
      Step due ⟨s, re, we + 1⟩ (.handler .writeTimer)
        ⟨s.settle (s.connection, Connection.onTimer false), re, we⟩

end Clocked

/-- Only the handlers of the timers depend on what is due. -/
theorem Hosted.Step.undue {due due' : Timer → Nat → Prop} {s s' : Hosted} {l : Happening}
    (h : Hosted.Step due s l s') (hread : l ≠ .readTimer) (hwrite : l ≠ .writeTimer) :
    Hosted.Step due' s l s' := by
  cases h with
  | tick h => exact .tick h
  | start h => exact .start h
  | read hr hpos hlen hdone => exact .read hr hpos hlen hdone
  | readFailed hr hdone => exact .readFailed hr hdone
  | readAborted hr hs hdone => exact .readAborted hr hs hdone
  | written hw => exact .written hw
  | writeFailed hw => exact .writeFailed hw
  | writeAborted hw hs => exact .writeAborted hw hs
  | readTimer _ _ => exact absurd rfl hread
  | readTimerCancelled hc => exact .readTimerCancelled hc
  | writeTimer _ _ => exact absurd rfl hwrite
  | writeTimerCancelled hc => exact .writeTimerCancelled hc
  | stop => exact .stop

/-- A run in which the handler of a wait runs as the wait expires is a run. -/
theorem Clocked.of_hosted {due : Timer → Nat → Prop} {s₀ s : Hosted}
    {ts : List (Transition Hosted Happening)} (h : Run (Hosted.Step due) s₀ ts s) :
    ∃ ts', Run (Clocked.Step due) ⟨s₀, 0, 0⟩ ts' ⟨s, 0, 0⟩ := by
  induction h with
  | start => exact ⟨[], .start⟩
  | @snoc ts s s' l _ hs ih =>
    obtain ⟨ts', hrun⟩ := ih
    cases l with
    | readTimer =>
      cases hs with
      | readTimer hw hdue =>
        exact ⟨_, (hrun.snoc (.readExpires hw hdue)).snoc .readTimer⟩
    | writeTimer =>
      cases hs with
      | writeTimer hw hdue =>
        exact ⟨_, (hrun.snoc (.writeExpires hw hdue)).snoc .writeTimer⟩
    | _ => exact ⟨_, hrun.snoc (.other (hs.undue nofun nofun))⟩

/-! ## Steps -/

/-- The waits pending on a timer are at most those wanted, and all of them as long as
none has expired. -/
structure Covers (expired waits wanted : Nat) : Prop where
  most : waits ≤ wanted
  all : expired = 0 → waits = wanted

theorem Covers.refl (expired waits : Nat) : Covers expired waits waits :=
  ⟨Nat.le_refl _, fun _ => rfl⟩

theorem Covers.expires {expired waits wanted : Nat} (h : Covers expired waits wanted) :
    Covers (expired + 1) (waits - 1) wanted :=
  ⟨(Nat.sub_le _ _).trans h.most, nofun⟩

theorem AsioOp.readWaits_mono (op : AsioOp) : Monotone op.readWaits := by
  intro waits waits' h
  cases op with
  | readTimerWait => exact Nat.succ_le_succ h
  | readTimerCancel => exact Nat.le_refl 0
  | _ => exact h

theorem AsioOp.writeWaits_mono (op : AsioOp) : Monotone op.writeWaits := by
  intro waits waits' h
  cases op with
  | writeTimerWait => exact Nat.succ_le_succ h
  | writeTimerCancel => exact Nat.le_refl 0
  | _ => exact h

/-- What covers the waits before a handler covers them behind it. -/
theorem Covers.foldl {expired waits wanted : Nat} {f : Nat → AsioOp → Nat}
    (hf : ∀ op, Monotone (f · op)) (h : Covers expired waits wanted) (ops : List AsioOp) :
    Covers expired (ops.foldl f waits) (ops.foldl f wanted) where
  most := List.foldl_monotone hf ops h.most
  all he := by rw [h.all he]

/-- As long as the connection is not stopped, the pending waits are those of what is
outstanding on the socket. -/
structure Watched (s : Clocked) : Prop where
  protocol : Protocol s.hosted
  read : s.hosted.stopped = false → Covers s.readExpired s.hosted.readTimer.waits
    (waitsFor s.hosted.connection.readTimeout s.hosted.reading)
  write : s.hosted.stopped = false → Covers s.writeExpired s.hosted.writeTimer.waits
    (waitsFor s.hosted.connection.writeTimeout s.hosted.writing.length)

namespace Watched

variable {due : Timer → Nat → Prop} {s : Hosted} {re we : Nat}

theorem of_stopped (h : Protocol s) (hs : s.stopped = true) : Watched ⟨s, re, we⟩ where
  protocol := h
  read hn := by rw [show s.stopped = false from hn] at hs; cases hs
  write hn := by rw [show s.stopped = false from hn] at hs; cases hs

/-- The handler of the only outstanding operation. -/
theorem settle {done : Connection × List AsioOp} (hprotocol : Protocol (s.settle done))
    (hr : s.reading = 0) (hw : s.writing = [])
    (h : s.stopped = false → stops done.2 = false → ∃ readWaits writeWaits,
      Covers re s.readTimer.waits readWaits ∧ Covers we s.writeTimer.waits writeWaits ∧
        Arms readWaits writeWaits done) : Watched ⟨s.settle done, re, we⟩ := by
  have hp := Hosted.settle_performed s done
  obtain ⟨hread, hwrite⟩ := s.settle_waits done
  have harms (hn : (s.settle done).stopped = false) : ∃ readWaits writeWaits,
      Covers re s.readTimer.waits readWaits ∧ Covers we s.writeTimer.waits writeWaits ∧
        Arms readWaits writeWaits done := by
    rw [hp.stopped, Bool.or_eq_false_iff] at hn
    exact h hn.1 hn.2
  refine ⟨hprotocol, fun hn => ?_, fun hn => ?_⟩
  · obtain ⟨_, _, hcovers, -, harms⟩ := harms hn
    show Covers re (s.settle done).readTimer.waits
      (waitsFor (s.settle done).connection.readTimeout (s.settle done).reading)
    rw [hread, hp.connection, hp.reading, hr, Nat.zero_add, ← harms.read]
    exact hcovers.foldl AsioOp.readWaits_mono _
  · obtain ⟨_, _, -, hcovers, harms⟩ := harms hn
    show Covers we (s.settle done).writeTimer.waits
      (waitsFor (s.settle done).connection.writeTimeout (s.settle done).writing.length)
    rw [hwrite, hp.connection, hp.writing, hw, List.nil_append, ← harms.write]
    exact hcovers.foldl AsioOp.writeWaits_mono _

theorem read_covers (h : Watched ⟨s, re, we⟩) (hr : 0 < s.reading) (hn : s.stopped = false) :
    Covers re s.readTimer.waits (waitsFor s.connection.readTimeout 1) ∧
      Covers we s.writeTimer.waits 0 := by
  obtain ⟨hzero, hnil⟩ := h.protocol.read_done hr
  have hone : s.reading = 1 := by
    have hle : s.reading - 1 = 0 := hzero
    omega
  have hread := h.read hn
  have hwrite := h.write hn
  rw [show s.writing = [] from hnil] at hwrite
  rw [show s.reading = 1 from hone] at hread
  exact ⟨hread, waitsFor_zero s.connection.writeTimeout ▸ hwrite⟩

theorem write_covers (h : Watched ⟨s, re, we⟩) {response : Bytes} {rest : List Bytes}
    (hw : s.writing = response :: rest) (hn : s.stopped = false) :
    Covers re s.readTimer.waits 0 := by
  obtain ⟨hr, -⟩ := h.protocol.write_done hw
  have hread := h.read hn
  rw [show s.reading = 0 from hr] at hread
  exact waitsFor_zero s.connection.readTimeout ▸ hread

/-- What a connection does whose timers do not expire. -/
theorem other {s' : Hosted} {l : Happening} (h : Watched ⟨s, re, we⟩)
    (hs : Hosted.Step (fun _ _ => False) s l s') : Watched ⟨s', re, we⟩ := by
  have hprotocol := h.protocol.step hs
  cases hs with
  | tick _ => exact ⟨hprotocol, h.read, h.write⟩
  | start hstarted =>
    obtain ⟨hr, hw, -⟩ := h.protocol.idle hstarted
    refine settle hprotocol hr hw fun hn _ => ⟨0, 0, ?_, ?_, arms_start s.connection⟩
    · have hread := h.read hn
      rw [show s.reading = 0 from hr] at hread
      exact waitsFor_zero s.connection.readTimeout ▸ hread
    · have hwrite := h.write hn
      rw [show s.writing = [] from hw] at hwrite
      exact waitsFor_zero s.connection.writeTimeout ▸ hwrite
  | read hr _ _ hdone =>
    obtain ⟨hr', hw⟩ := h.protocol.read_done hr
    refine settle hprotocol hr' hw fun hn hstops => ?_
    obtain ⟨hread, hwrite⟩ := h.read_covers hr hn
    exact ⟨_, _, hread, hwrite, arms_onRead s.connection hdone nofun hstops⟩
  | readFailed hr hdone =>
    obtain ⟨hr', hw⟩ := h.protocol.read_done hr
    refine settle hprotocol hr' hw fun hn hstops => ?_
    obtain ⟨hread, hwrite⟩ := h.read_covers hr hn
    exact ⟨_, _, hread, hwrite, arms_onRead s.connection hdone nofun hstops⟩
  | readAborted hr hstopped hdone =>
    obtain ⟨hr', hw⟩ := h.protocol.read_done hr
    exact settle hprotocol hr' hw fun hn _ => absurd (hstopped.symm.trans hn) (by decide)
  | written hw =>
    obtain ⟨hr, hrest⟩ := h.protocol.write_done hw
    refine settle hprotocol hr hrest fun hn hstops => ?_
    exact ⟨_, _, h.write_covers hw hn, .refl _ _, arms_onWrite s.connection _ nofun hstops⟩
  | writeFailed hw =>
    obtain ⟨hr, hrest⟩ := h.protocol.write_done hw
    refine settle hprotocol hr hrest fun hn hstops => ?_
    exact ⟨_, _, h.write_covers hw hn, .refl _ _, arms_onWrite s.connection _ nofun hstops⟩
  | writeAborted hw hstopped =>
    obtain ⟨hr, hrest⟩ := h.protocol.write_done hw
    exact settle hprotocol hr hrest fun hn _ => absurd (hstopped.symm.trans hn) (by decide)
  | readTimer _ hdue | writeTimer _ hdue => exact hdue.elim
  | readTimerCancelled _ => exact ⟨hprotocol, h.read, h.write⟩
  | writeTimerCancelled _ => exact ⟨hprotocol, h.read, h.write⟩
  | stop => exact of_stopped hprotocol rfl

theorem step {s s' : Clocked} {e : Clocked.Event} (h : Watched s) (hs : Clocked.Step due s e s') :
    Watched s' := by
  cases hs with
  | other hs => exact h.other hs
  | readExpires _ _ =>
    exact ⟨h.protocol.readTimer _, fun hn => (h.read hn).expires, h.write⟩
  | writeExpires _ _ =>
    exact ⟨h.protocol.writeTimer _, h.read, fun hn => (h.write hn).expires⟩
  | readTimer | writeTimer => exact of_stopped (h.protocol.onTimer false) rfl

end Watched

/-! ## Runs -/

section Runs

variable {due : Timer → Nat → Prop} {db : Bool} {command : CommandType} {limit now : Nat}
  {r w : Int}

theorem watched_construct (db : Bool) (command : CommandType) (limit now : Nat) (r w : Int) :
    Watched (.construct (.construct db command limit r w) now) where
  protocol := protocol_construct db command limit r w now
  read _ := waitsFor_zero r ▸ .refl 0 0
  write _ := waitsFor_zero w ▸ .refl 0 0

theorem watched_run {ts : List (Transition Clocked Clocked.Event)} {s : Clocked}
    (hrun : Run (Clocked.Step due) (.construct (.construct db command limit r w) now) ts s) :
    Watched s :=
  hrun.invariant (watched_construct db command limit now r w) fun _ _ _ h hs => h.step hs

/-- No step changes the settings of the connection. -/
theorem Clocked.settings_run {s₀ s : Clocked} {ts : List (Transition Clocked Clocked.Event)}
    (hrun : Run (Clocked.Step due) s₀ ts s) :
    s₀.hosted.connection.SameSettings s.hosted.connection := by
  refine hrun.invariant (I := fun s => s₀.hosted.connection.SameSettings s.hosted.connection)
    (.refl _) fun s e s' h hs => h.trans ?_
  cases hs with
  | other hs => exact hs.frame.connection
  | readExpires _ _ | writeExpires _ _ => exact .refl _
  | readTimer | writeTimer => exact .refl _

/-- Where the handlers of the waits run as they expire, no wait is missing. -/
theorem watched_hosted {ts : List (Transition Hosted Happening)} {s : Hosted}
    (hrun : Run (Hosted.Step due) (.construct (.construct db command limit r w) now) ts s) :
    Watched ⟨s, 0, 0⟩ := by
  obtain ⟨ts', hrun'⟩ := Clocked.of_hosted hrun
  exact watched_run hrun'

/-- No timer has expired with a wait whose handler has not run. -/
structure Attended (s : Hosted) : Prop where
  read : 0 < s.readTimer.waits → s.clock < s.readTimer.expiry
  write : 0 < s.writeTimer.waits → s.clock < s.writeTimer.expiry

/-- What the handlers have not run for can run. -/
theorem attended_iff {s : Hosted} : Attended s ↔
    ∀ s', ¬ Hosted.Step Timer.Due s .readTimer s' ∧ ¬ Hosted.Step Timer.Due s .writeTimer s' := by
  constructor
  · intro h s'
    constructor
    · intro hs
      cases hs with
      | readTimer hwaits hdue =>
        have hclock := h.read hwaits
        exact absurd hdue (by unfold Timer.Due; omega)
    · intro hs
      cases hs with
      | writeTimer hwaits hdue =>
        have hclock := h.write hwaits
        exact absurd hdue (by unfold Timer.Due; omega)
  · intro h
    constructor
    · intro hwaits
      by_contra hclock
      exact (h _).1 (.readTimer hwaits (Int.not_lt.mp hclock))
    · intro hwaits
      by_contra hclock
      exact (h _).2 (.writeTimer hwaits (Int.not_lt.mp hclock))

/-- **A connection ends with its timers**: once the handlers of all waits that are due
have run, a connection that was started is stopped, or reads before its read timer
expires, or writes before its write timer expires; each is given one such time, for all
its requests. -/
theorem ends_with_timers {ts : List (Transition Hosted Happening)} {s : Hosted}
    (hrun : Run (Hosted.Step due) (.construct (.construct db command limit r w) now) ts s)
    (hstarted : s.started = true) (hattended : Attended s) :
    s.stopped = true ∨ (0 < s.reading ∧ (0 < r → s.clock < now + r)) ∨
      (s.writing ≠ [] ∧ (0 < w → s.clock < now + w)) := by
  have hframe := Hosted.Frame.run hrun
  have hreadExpiry : s.readTimer.expiry = now + r := hframe.readTimer.expiry
  have hwriteExpiry : s.writeTimer.expiry = now + w := hframe.writeTimer.expiry
  have hwatched := watched_hosted hrun
  have hr : s.connection.readTimeout = r := hframe.connection.readTimeout
  have hw : s.connection.writeTimeout = w := hframe.connection.writeTimeout
  cases hn : s.stopped with
  | true => exact .inl rfl
  | false =>
    have hbusy : s.reading + s.writing.length = 1 := hwatched.protocol.busy hstarted hn
    refine .inr ?_
    rcases Nat.eq_zero_or_pos s.reading with hreading | hreading
    · have hwriting : 0 < s.writing.length := by omega
      refine .inr ⟨List.ne_nil_of_length_pos hwriting, fun hpos => ?_⟩
      rw [← hwriteExpiry]
      apply hattended.write
      rw [show s.writeTimer.waits = _ from (hwatched.write hn).all rfl, hw]
      exact waitsFor_pos hpos hwriting
    · refine .inl ⟨hreading, fun hpos => ?_⟩
      rw [← hreadExpiry]
      apply hattended.read
      rw [show s.readTimer.waits = _ from (hwatched.read hn).all rfl, hr]
      exact waitsFor_pos hpos hreading

/-- The second request of a client that then falls silent. -/
theorem ends_with_timers_silent :
    ∃ ts s, Run (Hosted.Step Timer.Due) (.construct (.construct true .none 0 10 0) 0) ts s ∧
      s.clock = 12 ∧ (s.stopped = true ∨ (0 < s.reading ∧ (0 < (10 : Int) → s.clock < (0 : Nat) +
        (10 : Int))) ∨ (s.writing ≠ [] ∧ (0 < (0 : Int) → s.clock < (0 : Nat) + (0 : Int)))) := by
  have h₁ := Run.start.snoc (.start rfl : Hosted.Step Timer.Due
    (.construct (.construct true .none 0 10 0) 0) .start _)
  have h₂ := h₁.snoc (.read_map (text "ping\n") (fun _ => none) (by decide) (by decide) (by decide))
  have h₃ := h₂.snoc (.written rfl)
  have h₄ := h₃.snoc (.tick (by decide : _ ≤ 12))
  have h₅ := h₄.snoc (.readTimer (by decide) (by decide))
  exact ⟨_, _, h₅, rfl, ends_with_timers h₅ rfl ⟨by decide, by decide⟩⟩

end Runs

end Quitsies.Tcp
