import Quitsies.Interaction.Throwing
import Quitsies.Stats.Statsd

/-!
# The metrics thread and its exceptions

`statsd_aggregator::background_loop` with what its calls can throw: the epoch callback
of `rocks`, which walks the directory of the database, the formatting of a metric, and
the socket. Nothing in the loop catches anything.
-/

namespace Quitsies.Stats

open Text Interaction

/-- What can end the thread other than a return: an exception, or undefined behaviour. -/
inductive Escape where
  | undefined
  | tooLarge
  | systemError
  | filesystemError
  deriving DecidableEq

/-! ## The size of a directory -/

mutual

/-- What the file system answers while a directory is walked. -/
inductive Folder where
  | existsThrew
  | missing
  | present (walk : Walk)

/-- What the iterator comes to when it is opened or incremented. -/
inductive Walk where
  | threw
  | finish
  | entry (entry : Entry) (next : Walk)

inductive Entry where
  | statusThrew
  | fileSizeThrew
  | file (size : Nat)
  | directory (folder : Folder)

end

mutual

/-- `rocks::get_folder_size`; the state is the size it adds to, a `uvalue_t`. -/
def getFolderSize : Folder → ExceptT Escape (StateM Nat) Unit
  | .existsThrew => throw .filesystemError
  | .missing => pure ()
  | .present walk => iterate walk

/-- The loop over the entries. What an entry throws is caught and logged. -/
def iterate : Walk → ExceptT Escape (StateM Nat) Unit
  | .threw => throw .filesystemError
  | .finish => pure ()
  | .entry entry next => do
    tryCatch (evaluate entry) fun _ => pure ()
    iterate next

def evaluate : Entry → ExceptT Escape (StateM Nat) Unit
  | .statusThrew => throw .filesystemError
  | .fileSizeThrew => throw .filesystemError
  | .file size => modify fun fileSize => (fileSize + size) % 2 ^ 64
  | .directory folder => getFolderSize folder

end

/-! ## The loop -/

/-- The maps, and what has gone out of the socket. -/
structure Metrics where
  aggregator : Aggregator
  sent : List Metric

abbrev Thread := ExceptT Escape (StateM Metrics) Unit

/-- What `rocksdb` and the file system answer to the callback of `rocks`. The tickers
are those of `_rocks_stats`, which only a database in debug mode has. -/
structure Epoch where
  numKeys : Nat
  tickers : Option (List (Bytes × Nat))
  folder : Folder

/-- `_local_stats->gauge`. -/
def gauge (name : Bytes) (value : Nat) : Thread :=
  modify fun s => { s with aggregator := s.aggregator.gauge name value }

/-- The callback that `rocks::open` registers. -/
def Epoch.call (epoch : Epoch) : Thread := do
  gauge (text "rocksdb.estimate-num-keys") epoch.numKeys
  (epoch.tickers.getD []).forM fun ticker => gauge ticker.1 ticker.2
  match (getFolderSize epoch.folder).run 0 with
  | (.ok (), folderSize) =>
    gauge (text "rocksdb.db-size") folderSize
    gauge (text "rocksdb.db-size-mb") (folderSize / 1000000)
  | (.error e, _) => throw e

/-- What one turn of the loop meets: whether the destructor has asked it to stop, what
the registered callbacks find, what other threads record before it locks a map, and
for which metrics `send_to` returns. -/
structure Turn where
  stop : Bool
  epochCalls : List Epoch
  recorded : Kind → List Metric
  sendTo : Metric → Bool

section Loop

variable (client : Statsd)

/-- `_statsd_client`'s function for the metric: `send_stat` and its socket. -/
def Turn.send (turn : Turn) (metric : Metric) : Thread :=
  match client.send metric with
  | .undefined => throw .undefined
  | .tooLarge => throw .tooLarge
  | .datagram _ =>
    if turn.sendTo metric then modify fun s => { s with sent := s.sent ++ [metric] }
    else throw .systemError

def Turn.recordOthers (turn : Turn) (kind : Kind) (a : Aggregator) : Aggregator :=
  (turn.recorded kind).foldl Aggregator.record a

/-- The block of a map. -/
def Turn.flush (turn : Turn) (kind : Kind) : Thread := do
  modify fun s => { s with aggregator := turn.recordOthers kind s.aggregator }
  let metrics ← modifyGet fun s =>
    let (metrics, aggregator) := s.aggregator.swap kind
    (metrics, { s with aggregator := aggregator })
  metrics.forM (turn.send client)

/-- The body of the loop up to where it sleeps. -/
def Turn.run (turn : Turn) : Thread := do
  turn.epochCalls.forM Epoch.call
  turn.flush client .sets
  turn.flush client .timers
  turn.flush client .gauges
  turn.flush client .counters

def Turn.request (turn : Turn) (a : Aggregator) : Aggregator :=
  if turn.stop then { a with backgroundRunning := false } else a

/-- `statsd_aggregator::background_loop`, for as many turns as are given. -/
def backgroundLoop : List Turn → Thread
  | [] => pure ()
  | turn :: turns => do
    modify fun s => { s with aggregator := turn.request s.aggregator }
    if (← get).aggregator.backgroundRunning then
      turn.run client
      backgroundLoop turns

end Loop

/-! ## What the thread meets -/

mutual

/-- What the entries add up to that could be read. -/
def Folder.bytes : Folder → Nat
  | .existsThrew => 0
  | .missing => 0
  | .present walk => walk.bytes

def Walk.bytes : Walk → Nat
  | .threw => 0
  | .finish => 0
  | .entry entry next => entry.bytes + next.bytes

def Entry.bytes : Entry → Nat
  | .statusThrew => 0
  | .fileSizeThrew => 0
  | .file size => size
  | .directory folder => folder.bytes

end

/-- The iterator reaches its end, whatever the entries are. -/
def Walk.Finishes : Walk → Prop
  | .threw => False
  | .finish => True
  | .entry _ next => next.Finishes

/-- The directory is missing, or its iterator can be opened and incremented. -/
def Folder.Walked : Folder → Prop
  | .existsThrew => False
  | .missing => True
  | .present walk => walk.Finishes

def Epoch.gauges (epoch : Epoch) : List Metric :=
  [.gauge (text "rocksdb.estimate-num-keys") epoch.numKeys] ++
    (epoch.tickers.getD []).map (fun ticker => .gauge ticker.1 ticker.2) ++
    [.gauge (text "rocksdb.db-size") (epoch.folder.bytes % 2 ^ 64),
      .gauge (text "rocksdb.db-size-mb") (epoch.folder.bytes % 2 ^ 64 / 1000000)]

def recordEpochs (epochs : List Epoch) (a : Aggregator) : Aggregator :=
  epochs.foldl (fun a epoch => epoch.gauges.foldl Aggregator.record a) a

/-- The metric is printed into fewer bytes than the buffer has. -/
def Statsd.fits (client : Statsd) (metric : Metric) : Bool :=
  match snprintf (cString (client.front ++ metric.mask))
      [.string (cString metric.name), .word metric.value] with
  | none => false
  | some printed => 0 < printed.length && printed.length < maxBufferSize

namespace Turn

/-- What the block of a map takes out of it, and what it leaves. -/
def swapped (turn : Turn) (kind : Kind) (a : Aggregator) : List Metric × Aggregator :=
  (turn.recordOthers kind a).swap kind

def swapAll (turn : Turn) : List Kind → Aggregator → List Metric × Aggregator
  | [], a => ([], a)
  | kind :: kinds, a =>
    let rest := turn.swapAll kinds (turn.swapped kind a).2
    ((turn.swapped kind a).1 ++ rest.1, rest.2)

/-- The metrics of the flush, and what the maps are behind it. -/
def flushed (turn : Turn) (a : Aggregator) : List Metric × Aggregator :=
  turn.swapAll [.sets, .timers, .gauges, .counters] (recordEpochs turn.epochCalls a)

/-- No callback meets a directory it cannot walk, and every metric of the flush fits a
datagram that the socket takes. -/
structure Calm (client : Statsd) (turn : Turn) (a : Aggregator) : Prop where
  walked : ∀ epoch ∈ turn.epochCalls, epoch.folder.Walked
  taken : ∀ metric ∈ (turn.flushed a).1,
    client.fits metric = true ∧ turn.sendTo metric = true

end Turn

section Course

variable (client : Statsd)

/-- Every turn of the loop is calm, until it is asked to stop. -/
def Calm : Aggregator → List Turn → Prop
  | _, [] => True
  | a, turn :: turns =>
    (turn.request a).backgroundRunning = true →
      turn.Calm client (turn.request a) ∧ Calm (turn.flushed (turn.request a)).2 turns

/-- The metrics of all flushes that fit a datagram the socket takes. -/
def deliverable : Aggregator → List Turn → List Metric
  | _, [] => []
  | a, turn :: turns =>
    if (turn.request a).backgroundRunning then
      let flushed := turn.flushed (turn.request a)
      flushed.1.filter (fun metric => client.fits metric && turn.sendTo metric) ++
        deliverable flushed.2 turns
    else []

/-- Nothing leaves the loop but its return, and no metric is missing that could have
been sent. -/
def Survives (a : Aggregator) (turns : List Turn) : Prop :=
  ∃ s, (backgroundLoop client turns).run ⟨a, []⟩ = (.ok (), s) ∧
    s.sent = deliverable client a turns

end Course

/-! ## The walk -/

theorem iterate_entry (entry : Entry) (next : Walk) (n : Nat) :
    (iterate (.entry entry next)).run n = (iterate next).run ((evaluate entry).run n).2 :=
  run_bind_ok _ (run_caught (evaluate entry) n)

mutual

theorem getFolderSize_size {n : Nat} (h : n < 2 ^ 64) : (folder : Folder) →
    ((getFolderSize folder).run n).2 = (n + folder.bytes) % 2 ^ 64
  | .existsThrew => (Nat.mod_eq_of_lt h).symm
  | .missing => (Nat.mod_eq_of_lt h).symm
  | .present walk => iterate_size h walk

theorem iterate_size {n : Nat} (h : n < 2 ^ 64) : (walk : Walk) →
    ((iterate walk).run n).2 = (n + walk.bytes) % 2 ^ 64
  | .threw => (Nat.mod_eq_of_lt h).symm
  | .finish => (Nat.mod_eq_of_lt h).symm
  | .entry entry next => by
    have hentry := evaluate_size h entry
    have hlt : ((evaluate entry).run n).2 < 2 ^ 64 := by omega
    rw [iterate_entry, iterate_size hlt next, hentry, Walk.bytes]
    omega

theorem evaluate_size {n : Nat} (h : n < 2 ^ 64) : (entry : Entry) →
    ((evaluate entry).run n).2 = (n + entry.bytes) % 2 ^ 64
  | .statusThrew => (Nat.mod_eq_of_lt h).symm
  | .fileSizeThrew => (Nat.mod_eq_of_lt h).symm
  | .file _ => rfl
  | .directory folder => getFolderSize_size h folder

end

/-- Only opening or incrementing the iterator can end the loop over the entries early. -/
theorem iterate_returned : (walk : Walk) → (n : Nat) →
    (walk.Finishes → ((iterate walk).run n).1 = .ok ()) ∧
      (¬ walk.Finishes → ((iterate walk).run n).1 = .error .filesystemError)
  | .threw, _ => ⟨fun h => h.elim, fun _ => rfl⟩
  | .finish, _ => ⟨fun _ => rfl, fun h => absurd trivial h⟩
  | .entry entry next, n => by
    rw [iterate_entry]
    exact iterate_returned next _

theorem getFolderSize_returned (folder : Folder) (n : Nat) :
    (folder.Walked → ((getFolderSize folder).run n).1 = .ok ()) ∧
      (¬ folder.Walked → ((getFolderSize folder).run n).1 = .error .filesystemError) := by
  cases folder with
  | existsThrew => exact ⟨fun h => h.elim, fun _ => rfl⟩
  | missing => exact ⟨fun _ => rfl, fun h => absurd trivial h⟩
  | present walk => exact iterate_returned walk n

def Metrics.recordAll (s : Metrics) (metrics : List Metric) : Metrics :=
  { s with aggregator := metrics.foldl Aggregator.record s.aggregator }

theorem gauge_returns (name : Bytes) (value : Nat) :
    ReturnsWhen (gauge name value) (fun _ => True) (·.recordAll [.gauge name value]) :=
  .modify _

theorem tickers_return (tickers : List (Bytes × Nat)) :
    ReturnsWhen (tickers.forM fun ticker => gauge ticker.1 ticker.2) (fun _ => True)
      (·.recordAll (tickers.map fun ticker => .gauge ticker.1 ticker.2)) := by
  have hloop := ReturnsWhen.forM (fun ticker : Bytes × Nat => gauge_returns ticker.1 ticker.2)
    tickers
  refine hloop.congr (by simp) fun s _ => ?_
  clear hloop
  induction tickers generalizing s with
  | nil => rfl
  | cons ticker tickers ih => exact ih (s.recordAll [.gauge ticker.1 ticker.2])

theorem getFolderSize_walked {folder : Folder} (h : folder.Walked) :
    (getFolderSize folder).run 0 = (.ok (), folder.bytes % 2 ^ 64) := by
  have hsize := getFolderSize_size (by decide) folder (n := 0)
  rw [Nat.zero_add] at hsize
  exact Prod.ext ((getFolderSize_returned folder 0).1 h) hsize

theorem getFolderSize_thrown {folder : Folder} (h : ¬ folder.Walked) :
    ∃ n, (getFolderSize folder).run 0 = (.error .filesystemError, n) :=
  ⟨_, Prod.ext ((getFolderSize_returned folder 0).2 h) rfl⟩

/-- The callback of `rocks` records its gauges, or meets a directory it cannot walk. -/
theorem Epoch.call_returns (epoch : Epoch) :
    ReturnsWhen epoch.call (fun _ => epoch.folder.Walked) (·.recordAll epoch.gauges) := by
  have hfront {x : Thread} {p : Metrics → Prop} {f : Metrics → Metrics} (hx : ReturnsWhen x p f) :=
    (gauge_returns (text "rocksdb.estimate-num-keys") epoch.numKeys).bind
      (k := fun _ => (epoch.tickers.getD []).forM (fun ticker => gauge ticker.1 ticker.2) >>=
        fun _ => x) ((tickers_return (epoch.tickers.getD [])).bind hx)
  unfold Epoch.call
  by_cases hw : epoch.folder.Walked
  · rw [getFolderSize_walked hw]
    have hsizes := (gauge_returns (text "rocksdb.db-size") (epoch.folder.bytes % 2 ^ 64)).bind
      (k := fun _ => gauge (text "rocksdb.db-size-mb") (epoch.folder.bytes % 2 ^ 64 / 1000000))
      (gauge_returns _ _)
    refine (hfront hsizes).congr (by simp [hw]) fun s _ => ?_
    simp only [Epoch.gauges, Metrics.recordAll, List.foldl_append, List.foldl_cons,
      List.foldl_nil, Function.comp_apply]
  · obtain ⟨n, hn⟩ := getFolderSize_thrown hw
    rw [hn]
    exact (hfront (.throw Escape.filesystemError)).congr (by simp [hw]) fun s h => absurd h hw

theorem calls_return (epochs : List Epoch) :
    ReturnsWhen (epochs.forM Epoch.call) (fun _ => ∀ epoch ∈ epochs, epoch.folder.Walked)
      fun s => { s with aggregator := recordEpochs epochs s.aggregator } := by
  refine (ReturnsWhen.forM Epoch.call_returns epochs).congr (fun _ => Iff.rfl) fun s h => ?_
  clear h
  induction epochs generalizing s with
  | nil => rfl
  | cons epoch epochs ih => exact ih (s.recordAll epoch.gauges)

/-! ## The flush -/

section Flush

variable (client : Statsd)

theorem fits_iff (metric : Metric) :
    client.fits metric = true ↔ ∃ d, client.send metric = .datagram d := by
  rw [send_eq, Statsd.sendStat, Statsd.fits]
  cases snprintf (cString (client.front ++ metric.mask))
      [.string (cString metric.name), .word metric.value] with
  | none => simp
  | some printed =>
    by_cases hfits : printed.length = 0 ∨ maxBufferSize ≤ printed.length
    · simp only [if_pos hfits, Bool.and_eq_true, decide_eq_true_eq, reduceCtorEq, exists_false,
        iff_false]
      omega
    · simp only [if_neg hfits, Bool.and_eq_true, decide_eq_true_eq, SendStat.datagram.injEq,
        exists_eq', iff_true]
      omega

variable (turn : Turn)

/-- A metric goes out, or what keeps it from that leaves the function. -/
theorem Turn.send_returns (metric : Metric) :
    ReturnsWhen (turn.send client metric)
      (fun _ => client.fits metric = true ∧ turn.sendTo metric = true)
      fun s => { s with sent := s.sent ++ [metric] } := by
  have hfits := fits_iff client metric
  unfold Turn.send
  cases hsend : client.send metric with
  | undefined | tooLarge =>
    rw [hsend] at hfits
    refine (ReturnsWhen.throw _).congr (by simp [hfits]) fun s h => absurd h.1 (by simp [hfits])
  | datagram d =>
    have hyes : client.fits metric = true := hfits.mpr ⟨d, hsend⟩
    cases hto : turn.sendTo metric with
    | true => exact (ReturnsWhen.modify _).congr (by simp [hyes]) fun s _ => rfl
    | false => exact (ReturnsWhen.throw _).congr (by simp) fun s h => absurd h.2 (by simp)

theorem Turn.flush_returns (kind : Kind) :
    ReturnsWhen (turn.flush client kind)
      (fun s => ∀ metric ∈ (turn.swapped kind s.aggregator).1,
        client.fits metric = true ∧ turn.sendTo metric = true)
      fun s =>
        ⟨(turn.swapped kind s.aggregator).2, s.sent ++ (turn.swapped kind s.aggregator).1⟩ := by
  have hloop := ReturnsWhen.forM (turn.send_returns client)
  have hrun (s : Metrics) : (turn.flush client kind).run s =
      ((turn.swapped kind s.aggregator).1.forM (turn.send client)).run
        ⟨(turn.swapped kind s.aggregator).2, s.sent⟩ := rfl
  have hsent (metrics : List Metric) (s : Metrics) :
      metrics.foldl (fun s metric => { s with sent := s.sent ++ [metric] }) s =
        { s with sent := s.sent ++ metrics } := by
    induction metrics generalizing s with
    | nil => simp
    | cons metric metrics ih => simp [ih]
  constructor
  · intro s h
    rw [hrun, (hloop _).returned _ h, hsent]
  · intro s h
    rw [hrun]
    exact (hloop _).thrown _ h

/-- **One turn**: it returns if and only if it is calm, and has then sent its flush. -/
theorem Turn.run_returns :
    ReturnsWhen (turn.run client) (fun s => turn.Calm client s.aggregator)
      fun s => ⟨(turn.flushed s.aggregator).2, s.sent ++ (turn.flushed s.aggregator).1⟩ := by
  have hflush := turn.flush_returns client
  have hrun := (calls_return turn.epochCalls).bind (k := fun _ => _)
    ((hflush .sets).bind (k := fun _ => _) ((hflush .timers).bind (k := fun _ => _)
      ((hflush .gauges).bind (k := fun _ => _) (hflush .counters))))
  refine hrun.congr (fun s => ?_) fun s _ => ?_
  · constructor
    · intro h
      have htaken := h.taken
      simp only [Turn.flushed, Turn.swapAll, List.forall_mem_append] at htaken
      exact ⟨h.walked, htaken.1, htaken.2.1, htaken.2.2.1, htaken.2.2.2.1⟩
    · intro h
      obtain ⟨hwalked, hsets, htimers, hgauges, hcounters⟩ := h
      refine ⟨hwalked, ?_⟩
      simp only [Turn.flushed, Turn.swapAll, List.forall_mem_append]
      exact ⟨hsets, htimers, hgauges, hcounters, by simp⟩
  · simp [Turn.flushed, Turn.swapAll]

/-! ## The whole loop -/

/-- What the turns send and leave when nothing escapes. -/
def course : Aggregator → List Turn → List Metric × Aggregator
  | a, [] => ([], a)
  | a, turn :: turns =>
    if (turn.request a).backgroundRunning then
      let flushed := turn.flushed (turn.request a)
      (flushed.1 ++ (course flushed.2 turns).1, (course flushed.2 turns).2)
    else ([], turn.request a)

theorem backgroundLoop_returns (turns : List Turn) :
    ReturnsWhen (backgroundLoop client turns) (fun s => Calm client s.aggregator turns)
      fun s => ⟨(course s.aggregator turns).2, s.sent ++ (course s.aggregator turns).1⟩ := by
  induction turns with
  | nil => exact ReturnsWhen.skip.congr (fun _ => Iff.rfl) fun s _ => by simp [course]
  | cons turn turns ih =>
    have hturn := (turn.run_returns client).bind (k := fun _ => backgroundLoop client turns) ih
    have hrun (s : Metrics) : (backgroundLoop client (turn :: turns)).run s =
        (if (turn.request s.aggregator).backgroundRunning then
          turn.run client >>= fun _ => backgroundLoop client turns
        else pure ()).run { s with aggregator := turn.request s.aggregator } := rfl
    constructor
    · intro s h
      rw [hrun]
      split
      · next hrunning =>
        rw [hturn.returned _ (h hrunning)]
        simp [course, hrunning]
      · next hstopped =>
        simp [course, hstopped]
        rfl
    · intro s h
      rw [hrun]
      split
      · next hrunning => exact hturn.thrown _ fun hcalm => h fun _ => hcalm
      · next hstopped => exact absurd (fun hrunning => absurd hrunning hstopped) h

/-- Of a calm course everything can be delivered. -/
theorem deliverable_eq {a : Aggregator} {turns : List Turn} (h : Calm client a turns) :
    deliverable client a turns = (course a turns).1 := by
  induction turns generalizing a with
  | nil => rfl
  | cons turn turns ih =>
    by_cases hrunning : (turn.request a).backgroundRunning = true
    · obtain ⟨hturn, hrest⟩ := h hrunning
      have hall : (turn.flushed (turn.request a)).1.filter
          (fun metric => client.fits metric && turn.sendTo metric) =
            (turn.flushed (turn.request a)).1 := by
        apply List.filter_eq_self.mpr
        intro metric hmetric
        have htaken := hturn.taken metric hmetric
        rw [htaken.1, htaken.2]
        rfl
      simp only [deliverable, course, if_pos hrunning]
      rw [hall, ih hrest]
    · simp only [deliverable, course, if_neg hrunning]

end Flush

/-! ## The loop as steps of the background thread -/

/-- A run that has come to `s` can go on to `s'`, and hands these metrics over on the way. -/
def Leads (s : Aggregation) (metrics : List Metric) (s' : Aggregation) : Prop :=
  ∀ s₀ ts, Run Step s₀ ts s → ∃ ts', Run Step s₀ ts' s' ∧ handed ts' = handed ts ++ metrics

namespace Leads

variable {s s' s'' : Aggregation} {metrics metrics' : List Metric}

theorem refl (s : Aggregation) : Leads s [] s :=
  fun _ ts h => ⟨ts, h, (List.append_nil _).symm⟩

theorem step {l : Activity} (h : Step s l s') : Leads s l.handed s' :=
  fun _ ts hrun => ⟨ts ++ [⟨s, l, s'⟩], hrun.snoc h, by simp [handed]⟩

theorem trans (h : Leads s metrics s') (h' : Leads s' metrics' s'') :
    Leads s (metrics ++ metrics') s'' := by
  intro s₀ ts hrun
  obtain ⟨ts', hrun', hhanded⟩ := h s₀ ts hrun
  obtain ⟨ts'', hrun'', hhanded'⟩ := h' s₀ ts' hrun'
  exact ⟨ts'', hrun'', by rw [hhanded', hhanded, List.append_assoc]⟩

theorem record (metrics : List Metric) (a : Aggregator) (b : Background) :
    Leads ⟨a, b⟩ [] ⟨metrics.foldl Aggregator.record a, b⟩ := by
  induction metrics generalizing a with
  | nil => exact refl _
  | cons metric metrics ih => exact (step .record).trans (ih (a.record metric))

theorem epochs (epochs : List Epoch) (a : Aggregator) (b : Background) :
    Leads ⟨a, b⟩ [] ⟨recordEpochs epochs a, b⟩ := by
  induction epochs generalizing a with
  | nil => exact refl _
  | cons epoch epochs ih => exact (record epoch.gauges a b).trans (ih _)

theorem send (a : Aggregator) (kind : Kind) (metrics : List Metric) :
    Leads ⟨a, .sending kind metrics⟩ metrics ⟨a, .sending kind []⟩ := by
  induction metrics with
  | nil => exact refl _
  | cons metric metrics ih => exact (step .send).trans ih

theorem flush (turn : Turn) (kind : Kind) (a : Aggregator) :
    Leads ⟨a, .swapping kind⟩ (turn.swapped kind a).1 ⟨(turn.swapped kind a).2, kind.next⟩ := by
  have hflush := (((record (turn.recorded kind) a (.swapping kind)).trans (step .swap)).trans
    (send (turn.swapped kind a).2 kind (turn.swapped kind a).1)).trans (step .flushed)
  simpa [Activity.handed] using hflush

theorem turn (turn : Turn) {a : Aggregator} (h : a.backgroundRunning = true) :
    Leads ⟨a, .loop⟩ (turn.flushed a).1 ⟨(turn.flushed a).2, .loop⟩ := by
  have htest : Leads ⟨a, .loop⟩ [] ⟨a, .epochs⟩ := by
    have hstep := step (Step.test (a := a))
    rwa [if_pos h] at hstep
  have hturn := (((((htest.trans (epochs turn.epochCalls a .epochs)).trans (step .epochs)).trans
    (flush turn .sets _)).trans (flush turn .timers _)).trans (flush turn .gauges _)).trans
      (flush turn .counters _) |>.trans (step .wake)
  simpa [Activity.handed, Turn.flushed, Turn.swapAll] using hturn

theorem request (turn : Turn) (a : Aggregator) (b : Background) :
    Leads ⟨a, b⟩ [] ⟨turn.request a, b⟩ := by
  unfold Turn.request
  split
  · exact step .stop
  · exact refl _

/-- The turns of the loop are steps of the background thread and of the others. -/
theorem course (turns : List Turn) (a : Aggregator) :
    ∃ b, Leads ⟨a, .loop⟩ (course a turns).1 ⟨(course a turns).2, b⟩ := by
  induction turns generalizing a with
  | nil => exact ⟨.loop, refl _⟩
  | cons turn turns ih =>
    have hrequest := request turn a .loop
    by_cases hrunning : (turn.request a).backgroundRunning = true
    · obtain ⟨b, hrest⟩ := ih (turn.flushed (turn.request a)).2
      refine ⟨b, ?_⟩
      have hcourse := (hrequest.trans (Leads.turn turn hrunning)).trans hrest
      simpa only [Stats.course, if_pos hrunning, List.nil_append] using hcourse
    · refine ⟨.loop, ?_⟩
      simpa only [Stats.course, if_neg hrunning] using hrequest

end Leads

/-- A calm loop sends what the background thread hands over in some run. -/
theorem backgroundLoop_steps (client : Statsd) {a : Aggregator} {turns : List Turn}
    (h : Calm client a turns) :
    ∃ s b, (backgroundLoop client turns).run ⟨a, []⟩ = (.ok (), s) ∧
      Leads ⟨a, .loop⟩ s.sent ⟨s.aggregator, b⟩ := by
  obtain ⟨b, hb⟩ := Leads.course turns a
  exact ⟨_, b, (backgroundLoop_returns client turns).returned ⟨a, []⟩ h, hb⟩

/-- **The metrics thread survives bad metrics** if and only if every turn of the loop is
calm: it does not survive a directory that cannot be walked, a metric that does not fit,
or a datagram that the socket does not take. -/
theorem survives_iff (front : Bytes) (a : Aggregator) (turns : List Turn) :
    Survives (.construct front) a turns ↔ Calm (.construct front) a turns := by
  have hloop := backgroundLoop_returns (.construct front) turns
  constructor
  · intro h
    obtain ⟨s, hs, -⟩ := h
    by_contra hcalm
    obtain ⟨e, s', he⟩ := hloop.thrown ⟨a, []⟩ hcalm
    rw [he] at hs
    cases hs
  · intro hcalm
    refine ⟨_, hloop.returned ⟨a, []⟩ hcalm, ?_⟩
    rw [deliverable_eq _ hcalm]
    rfl

/-- A turn in which another thread records two timers, of which the socket takes one. -/
def refusing : Turn :=
  ⟨false, [], fun _ => [.timer (text "a") 1, .timer (text "b") 2],
    fun metric => metric ≠ .timer (text "a") 1⟩

/-- A directory that cannot be opened; and a timer that the socket does not take, which
keeps another one from being sent. -/
theorem not_survives :
    ¬ Survives (.construct (text "quitsies")) .construct
        [⟨false, [⟨0, none, .present .threw⟩], fun _ => [], fun _ => true⟩] ∧
      ((backgroundLoop (.construct (text "quitsies")) [refusing]).run ⟨.construct, []⟩).1 =
        .error .systemError ∧
      ((backgroundLoop (.construct (text "quitsies")) [refusing]).run ⟨.construct, []⟩).2.sent =
        [] ∧
      deliverable (.construct (text "quitsies")) .construct [refusing] =
        [.timer (text "b") 2] := by
  refine ⟨?_, by decide, by decide, by decide⟩
  intro h
  obtain ⟨s, hs, -⟩ := h
  have hcall : ((backgroundLoop (.construct (text "quitsies"))
      [⟨false, [⟨0, none, .present .threw⟩], fun _ => [], fun _ => true⟩]).run
        ⟨.construct, []⟩).1 = .error .filesystemError := by decide
  rw [hs] at hcall
  cases hcall

end Quitsies.Stats
