import Quitsies.Tcp.Protocol

/-!
# `tcp::server`, its settings

The three settings of a server and how they reach the connections it accepts.
`do_accept` passes them to the constructor of `connection` in the order of the
members, the constructor takes them in another, and each converts to what it
finds.
-/

namespace Quitsies.Tcp

open Text Interaction Db

/-- The members of `server` that are passed to connections. -/
structure Server where
  db : Bool
  readTimeout : Int
  writeTimeout : Int
  reqMaxBytes : Nat

/-- An `int` that is given a `size_t`. -/
def intOfSize (v : Nat) : Int := (v : Int).bmod (2 ^ 32)

namespace Server

def construct (db : Bool) : Server := ⟨db, 0, 0, 0⟩

def setReadTimeout (s : Server) (timeMilliseconds : Int) : Server :=
  { s with readTimeout := timeMilliseconds }

def setWriteTimeout (s : Server) (timeMilliseconds : Int) : Server :=
  { s with writeTimeout := timeMilliseconds }

def setMaxRequestBytes (s : Server) (numBytes : Nat) : Server := { s with reqMaxBytes := numBytes }

/-- `run`: how many threads run the `io_service`, the one that calls it or those it starts. -/
def run (nThreads : Int) : Nat := if 1 < nThreads then nThreads.toNat else 1

/-- The `make_shared<connection>` of `do_accept`. -/
def accept (s : Server) (command : CommandType) : Connection :=
  .construct s.db command (sizeOfInt s.readTimeout) s.writeTimeout (intOfSize s.reqMaxBytes)

end Server

/-- A server with all three settings, before it accepts. -/
def limited (db : Bool) (r w : Int) (m : Nat) : Server :=
  (((Server.construct db).setReadTimeout r).setWriteTimeout w).setMaxRequestBytes m

/-- The settings are in force in a state of a connection: what is rejected, and
when the two timers are waited on. -/
structure LimitsReach (r w : Int) (m : Nat) (s : Hosted) : Prop where
  rejected : 0 < s.reading → ∀ data : Bytes, 0 < data.length → data.length ≤ Hosted.bufferSize →
    s.connection.request.exceeds data.length = true →
      0 < m ∧ m ≤ data.length + s.connection.request.buffer.length
  readWait : .readTimerWait ∈ s.connection.start ↔ 0 < r
  readDuration : 0 < r → s.readTimer.duration = r
  writeWait : 0 < s.reading → ∀ (data : Bytes) (events : List StoreEvent) (request : Request),
    0 < data.length → data.length ≤ Hosted.bufferSize →
    (process s.connection.request data).Performs events request → request.status = .finished →
      (.writeTimerWait ∈ (Connection.dispatch { s.connection with request := request }).2 ↔ 0 < w)
  writeDuration : 0 < w → s.writeTimer.duration = w

/-- The byte limit is enforced: a request that comes to it is rejected. -/
def Enforced (m : Nat) (s : Hosted) : Prop :=
  0 < s.reading → ∀ data : Bytes, 0 < data.length → data.length ≤ Hosted.bufferSize →
    0 < m → m ≤ data.length + s.connection.request.buffer.length →
      s.connection.request.exceeds data.length = true

/-! ## Which settings a connection has -/

variable {due : Timer → Nat → Prop} {r w : Int} {m : Nat}

theorem sizeOfInt_of_nonneg (h : 0 ≤ r) (h' : r < 2 ^ 31) : (sizeOfInt r : Int) = r := by
  unfold sizeOfInt
  omega

theorem intOfSize_of_lt (h : m < 2 ^ 31) : intOfSize m = m := by
  unfold intOfSize
  rw [Int.bmod_def]
  omega

/-- Which waits a connection starts is decided by its own timeouts. -/
theorem readTimerWait_mem_start {c : Connection} :
    .readTimerWait ∈ c.start ↔ 0 < c.readTimeout := by
  unfold Connection.start Connection.doRead
  by_cases h : 0 < c.readTimeout <;> simp [h]

theorem writeTimerWait_mem_swapTimers {c : Connection} :
    .writeTimerWait ∈ c.swapTimers ↔ 0 < c.writeTimeout := by
  unfold Connection.swapTimers
  by_cases h : 0 < c.writeTimeout <;> simp [h]

theorem writeTimerWait_not_mem_start {c : Connection} : .writeTimerWait ∉ c.start := by
  unfold Connection.start Connection.doRead
  by_cases h : 0 < c.readTimeout <;> simp [h]

theorem writeTimerWait_mem_dispatch {c : Connection} (h : c.request.status = .finished) :
    .writeTimerWait ∈ c.dispatch.2 ↔ 0 < c.writeTimeout := by
  have hstart : .writeTimerWait ∉ Connection.start { c with request := c.request.reset } :=
    writeTimerWait_not_mem_start
  have hreset : .writeTimerWait ∈ Connection.swapTimers { c with request := c.request.reset } ↔
      0 < c.writeTimeout := writeTimerWait_mem_swapTimers
  cases hn : c.request.noReply with
  | true =>
    simp only [Connection.dispatch, h, hn, ↓reduceIte, List.mem_append, List.mem_cons, hreset,
      hstart]
    simp
  | false =>
    simp [Connection.dispatch, h, hn, writeTimerWait_mem_swapTimers, Connection.doWrite,
      getResponse]

/-- The settings a connection has in a state, whatever the server was given. -/
structure Settings (limit : Nat) (r w : Int) (s : Hosted) : Prop where
  maxBytes : s.connection.request.maxBytes = limit
  readTimeout : s.connection.readTimeout = r
  writeTimeout : s.connection.writeTimeout = w
  readDuration : s.readTimer.duration = r
  writeDuration : s.writeTimer.duration = w

/-- A connection keeps, through every run, the settings it was constructed with. -/
theorem settings_run {db : Bool} {command : CommandType} {limit : Nat} {now : Nat} {s : Hosted}
    {ts : List (Transition Hosted Happening)}
    (hrun : Run (Hosted.Step due) (.construct (.construct db command limit r w) now) ts s) :
    Settings limit r w s := by
  have hframe := Hosted.Frame.run hrun
  exact ⟨hframe.connection.maxBytes, hframe.connection.readTimeout,
    hframe.connection.writeTimeout, hframe.readTimer.duration, hframe.writeTimer.duration⟩

theorem Settings.readWait {limit : Nat} {s : Hosted} (h : Settings limit r w s) :
    .readTimerWait ∈ s.connection.start ↔ 0 < r := by
  rw [readTimerWait_mem_start, h.readTimeout]

theorem Settings.writeWait {limit : Nat} {s : Hosted} (h : Settings limit r w s)
    {request : Request} (hf : request.status = .finished) :
    .writeTimerWait ∈ (Connection.dispatch { s.connection with request := request }).2 ↔
      0 < w := by
  rw [writeTimerWait_mem_dispatch hf, h.writeTimeout]

/-- The size check goes by the limit of the connection. -/
theorem Settings.exceeds {limit : Nat} {s : Hosted} (h : Settings limit r w s) (n : Nat) :
    s.connection.request.exceeds n = true ↔
      0 < limit ∧ limit ≤ n + s.connection.request.buffer.length := by
  simp [Request.exceeds, h.maxBytes]

/-! ## Runs that come to a limit -/

/-- The parser has read letters of a command, and the next read is outstanding. -/
structure Filling (n : Nat) (s : Hosted) : Prop where
  reading : 0 < s.reading
  status : s.connection.request.status = .command
  buffered : s.connection.request.buffer.length = n

/-- One more letter. -/
theorem Filling.letter {n : Nat} {s : Hosted} (h : Filling n s)
    (hx : s.connection.request.exceeds 1 = false) :
    ∃ s', Hosted.Step due s (.read [97] []) s' ∧ Filling (n + 1) s' := by
  let request : Request :=
    { s.connection.request with buffer := s.connection.request.buffer ++ [97] }
  have hdata : s.connection.request.status ≠ .data := by rw [h.status]; nofun
  have hprocess : process s.connection.request [97] = .done request := by
    show (if s.connection.request.exceeds 1 then _ else loop s.connection.request [97]) = _
    rw [hx, if_neg nofun, loop, onByte_token hdata rfl]
    rfl
  have hread : (s.connection.onRead (.bytes [97])).Performs []
      (Connection.dispatch { s.connection with request := request }) := by
    rw [Connection.onRead_bytes, hprocess]
    exact Prog.performs_done.mpr ⟨rfl, rfl⟩
  have hdispatch : Connection.dispatch { s.connection with request := request } =
      ({ s.connection with request := request }, Connection.doRead) := by
    simp only [Connection.dispatch, request, h.status]
  refine ⟨_, .read h.reading Nat.one_pos (by decide) hread, ?_⟩
  rw [hdispatch]
  refine ⟨Nat.succ_pos _, h.status, ?_⟩
  show (s.connection.request.buffer ++ [97]).length = n + 1
  rw [List.length_append, h.buffered]
  rfl

theorem settle_start (s : Hosted) : 0 < (s.settle (s.connection, s.connection.start)).reading ∧
    (s.settle (s.connection, s.connection.start)).connection = s.connection := by
  have hp := Hosted.settle_performed s (s.connection, s.connection.start)
  refine ⟨?_, hp.connection⟩
  rw [hp.reading, reads_start]
  exact Nat.succ_pos _

/-- Letters can be read as long as the limit is not reached. -/
theorem filling_run (due : Timer → Nat → Prop) (db : Bool) (command : CommandType) (r w : Int)
    (now limit n : Nat) (h : limit = 0 ∨ n < limit) :
    ∃ ts s, Run (Hosted.Step due) (.construct (.construct db command limit r w) now) ts s ∧
      Filling n s := by
  induction n with
  | zero =>
    obtain ⟨hr, hc⟩ := settle_start
      { Hosted.construct (.construct db command limit r w) now with started := true }
    refine ⟨_, _, Run.start.snoc (.start rfl), hr, ?_, ?_⟩
    · exact congrArg (fun c => c.request.status) hc
    · exact congrArg (fun c => c.request.buffer.length) hc
  | succ n ih =>
    obtain ⟨ts, s, hrun, hfilling⟩ := ih (by omega)
    have hx : s.connection.request.exceeds 1 = false := by
      apply Bool.eq_false_iff.mpr
      intro hexceeds
      obtain ⟨hpos, hle⟩ := ((settings_run hrun).exceeds 1).mp hexceeds
      have hn := hfilling.buffered
      omega
    obtain ⟨s', hs, hfilling'⟩ := hfilling.letter hx
    exact ⟨_, s', hrun.snoc hs, hfilling'⟩

/-- An empty line is answered, whether it is read or is too long. -/
theorem Filling.finishes {s : Hosted} (h : Filling 0 s) :
    ∃ request, (process s.connection.request [10]).Performs [] request ∧
      request.status = .finished := by
  have hb : s.connection.request.buffer = [] := List.eq_nil_of_length_eq_zero h.buffered
  unfold process
  split
  · exact ⟨_, Prog.performs_done.mpr ⟨rfl, rfl⟩, rfl⟩
  · have hdata : s.connection.request.status ≠ .data := by rw [h.status]; nofun
    have hthrow : onByte s.connection.request 10 = .throw
        { s.connection.request with command := .none, buffer := [] }
        (text "unsupported command") := by
      rw [onByte_whiteSpace hdata rfl]
      simp only [onWhiteSpace, h.status, hb]
      rfl
    rw [loop, hthrow]
    exact ⟨_, Prog.performs_done.mpr ⟨rfl, rfl⟩, rfl⟩

/-! ## The settings meet -/

/-- What the limits being in force says of the settings a connection was given. -/
theorem Settings.limitsReach {limit : Nat} {r' w' : Int} {s : Hosted} (h : Settings limit r' w' s)
    (hr : r' = r) (hw : 0 < w' ↔ 0 < w) (hw' : 0 < w → w' = w)
    (hlimit : 0 < limit → 0 < m ∧ m ≤ limit) : LimitsReach r w m s where
  rejected _ data _ _ hx := by
    obtain ⟨hpos, hle⟩ := (h.exceeds data.length).mp hx
    have hm := hlimit hpos
    omega
  readWait := by rw [h.readWait, hr]
  readDuration _ := by rw [h.readDuration, hr]
  writeWait _ data events request _ _ _ hf := by rw [h.writeWait hf, hw]
  writeDuration hpos := by rw [h.writeDuration, hw' hpos]

theorem Settings.enforced {r' w' : Int} {s : Hosted} (h : Settings m r' w' s) : Enforced m s := by
  intro _ data _ _ hpos hle
  exact (h.exceeds data.length).mpr ⟨hpos, hle⟩

/-- The limits are in force in every state of every run of the connection. -/
def InForce (due : Timer → Nat → Prop) (c : Connection) (now : Nat) (P : Hosted → Prop) : Prop :=
  ∀ ts s, Run (Hosted.Step due) (.construct c now) ts s → P s

/-- What the runs up to the first finished request say of the settings. -/
theorem settings_of_inForce {db : Bool} {command : CommandType} {limit : Nat} {r' w' : Int}
    {now : Nat} (hr : 0 ≤ r) (hr' : 0 ≤ r')
    (h : InForce due (.construct db command limit r' w') now (LimitsReach r w m)) :
    r' = r ∧ (0 < w' ↔ 0 < w) ∧ (0 < w → w' = w) ∧ (0 < limit → 0 < m ∧ m ≤ limit) := by
  have hzero := h [] _ .start
  have hwait : 0 < r' ↔ 0 < r := by
    rw [← hzero.readWait, readTimerWait_mem_start]
    rfl
  have hread : 0 < r → r' = r := hzero.readDuration
  obtain ⟨ts, s, hrun, hfilling⟩ := filling_run due db command r' w' now limit 0 (by omega)
  have hs := h ts s hrun
  have hsettings := settings_run hrun
  obtain ⟨request, hprocess, hfinished⟩ := hfilling.finishes
  refine ⟨by omega, ?_, hzero.writeDuration, ?_⟩
  · rw [← hsettings.writeWait hfinished]
    exact hs.writeWait hfilling.reading [10] [] request Nat.one_pos (by decide) hprocess hfinished
  · intro hpos
    obtain ⟨ts', s', hrun', hfilling'⟩ := filling_run due db command r' w' now limit
      (limit - 1) (by omega)
    have hb := hfilling'.buffered
    have hx := ((settings_run hrun').exceeds 1).mpr ⟨hpos, by omega⟩
    obtain ⟨hm, hle⟩ := (h ts' s' hrun').rejected hfilling'.reading [97] Nat.one_pos (by decide) hx
    rw [hb, List.length_singleton] at hle
    exact ⟨hm, by omega⟩

/-- **The limits of a server reach its connections** exactly when the two timeouts
and the byte limit are one number, or none of them limits anything. With the byte
limit enforced as well, they have to be one number. -/
theorem limits_reach_iff (due : Timer → Nat → Prop) (db : Bool) (command : CommandType) (now : Nat)
    {r w : Int} {m : Nat} (hr : 0 ≤ r) (hr' : r < 2 ^ 31) (hw : 0 ≤ w) :
    (InForce due ((limited db r w m).accept command) now (LimitsReach r w m) ↔
        r = w ∧ ((m : Int) = r ∨ r = 0 ∧ intOfSize m ≤ 0)) ∧
      (InForce due ((limited db r w m).accept command) now
          (fun s => LimitsReach r w m s ∧ Enforced m s) ↔ r = w ∧ (m : Int) = r) := by
  have haccept : (limited db r w m).accept command =
      .construct db command (sizeOfInt r) w (intOfSize m) := rfl
  have hlimit : (sizeOfInt r : Int) = r := sizeOfInt_of_nonneg hr hr'
  rw [haccept]
  have hforced (h : InForce due (.construct db command (sizeOfInt r) w (intOfSize m)) now
        (LimitsReach r w m)) :
      r = w ∧ ((m : Int) = r ∨ r = 0 ∧ intOfSize m ≤ 0) := by
    obtain ⟨hrw, hwrite, hwrite', hreject⟩ := settings_of_inForce hr hw h
    refine ⟨hrw.symm, ?_⟩
    by_cases hpos : 0 < r
    · obtain ⟨-, hle⟩ := hreject (by omega)
      have hint : intOfSize m = m := intOfSize_of_lt (by omega)
      have hduration := hwrite' (by omega)
      omega
    · omega
  have hreach (hrw : r = w) (h : (m : Int) = r ∨ r = 0 ∧ intOfSize m ≤ 0) :
      InForce due (.construct db command (sizeOfInt r) w (intOfSize m)) now
        (LimitsReach r w m) := by
    intro ts s hrun
    have hint : (m : Int) = r → intOfSize m = m := fun _ => intOfSize_of_lt (by omega)
    exact (settings_run hrun).limitsReach hrw.symm (by omega) (by omega) (by omega)
  refine ⟨⟨hforced, fun h => hreach h.1 h.2⟩, ?_, ?_⟩
  · intro h
    obtain ⟨hrw, hm | ⟨hzero, hint⟩⟩ := hforced fun ts s hrun => (h ts s hrun).1
    · exact ⟨hrw, hm⟩
    -- without a limit in force, letters can be read until the byte limit is passed
    · refine ⟨hrw, ?_⟩
      by_contra hne
      obtain ⟨ts, s, hrun, hfilling⟩ := filling_run due db command w (intOfSize m) now
        (sizeOfInt r) (m - 1) (by omega)
      have hb := hfilling.buffered
      have hx := (h ts s hrun).2 hfilling.reading [97] Nat.one_pos (by decide) (by omega)
        (by rw [hb, List.length_singleton]; omega)
      have hpos := ((settings_run hrun).exceeds 1).mp hx
      omega
  · intro h ts s hrun
    have hsize : sizeOfInt r = m := by omega
    have hsettings := settings_run hrun
    refine ⟨hreach h.1 (.inl h.2) ts s hrun, ?_⟩
    rw [hsize] at hsettings
    exact hsettings.enforced

/-- One number for all three. -/
theorem limits_reach_iff_equal :
    InForce Timer.Due ((limited true 100 100 100).accept .none) 0 (LimitsReach 100 100 100) :=
  (limits_reach_iff Timer.Due true .none 0 (by decide) (by decide) (by decide)).1.mpr
    ⟨rfl, .inl rfl⟩

/-- A read timeout of 100 ms, and nothing else. -/
theorem limits_reach_readTimeout :
    ¬ InForce Timer.Due ((limited true 100 0 0).accept .none) 0 (LimitsReach 100 0 0) := by
  intro h
  have hwait := (h [] _ .start).readWait
  exact absurd hwait (by decide)

end Quitsies.Tcp
