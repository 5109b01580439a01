import Quitsies.Db.Rocks
import Quitsies.Interaction.Census
import Quitsies.Service.Failures
import Quitsies.Stats.Aggregator

/-!
# Every operation is counted

The methods of `rocks` count each call of RocksDB under its outcome, behind the call.
The clients of the service call them through any number of requests while the
background thread of the aggregator flushes, so a call may be counted, owed its count,
swapped out or handed over; it is in one of these places.
-/

namespace Quitsies.Service

open Text Interaction Db Stats

/-- The counter that a call of RocksDB belongs to. -/
def outcome : RocksEvent → Option Bytes
  | ⟨.get _, (s, _)⟩ =>
    some (if s.ok then text "rocksdb.get.success"
      else if s.isNotFound then text "rocksdb.get.not_found" else text "rocksdb.get.error")
  | ⟨.delete _, s⟩ =>
    some (if s.isNotFound then text "rocksdb.delete.not_found"
      else if s.ok then text "rocksdb.delete.success" else text "rocksdb.delete.error")
  | ⟨.put _ _, s⟩ => some (if s.ok then text "rocksdb.put.success" else text "rocksdb.put.error")
  | _ => none

/-- The counters of the calls of RocksDB. -/
def outcomes : List Bytes :=
  [text "rocksdb.get.success", text "rocksdb.get.not_found", text "rocksdb.get.error",
    text "rocksdb.delete.success", text "rocksdb.delete.not_found", text "rocksdb.delete.error",
    text "rocksdb.put.success", text "rocksdb.put.error"]

/-! ## A call and its count -/

/-- The call that counts another. -/
def counting (e : RocksEvent) : Option RocksCall := (outcome e).map .counter

/-- The calls that count. -/
def Counting (op : RocksCall) : Prop := ∃ name, op = .counter name

abbrev Counted {A : Type} (e : RocksEvent) (front : RocksCall ⊕ A) : Prop :=
  ∀ op, Counting op → (front = .inl op ↔ counting e = some op)

section Programs

variable {A : Type}

/-- A program that does not begin by counting, and counts each call behind it. -/
def Counts (p : RocksProg A) : Prop :=
  (∀ op, Counting op → p.front ≠ .inl op) ∧ p.Chained Counted

/-- A call that nothing counts, and what comes behind it. -/
theorem counted_uncounted {e : RocksEvent} (h : counting e = none) {p : RocksProg A}
    (hp : Counts p) : Counted e p.front := by
  intro op hop
  rw [h]
  exact ⟨fun hfront => absurd hfront (hp.1 op hop), nofun⟩

/-- A call of RocksDB, its count and the rest of the method. -/
theorem counts_method {call : RocksCall} (hcall : ∀ name, call ≠ .counter name)
    {name : RocksResult call → Bytes} (hname : ∀ res, outcome ⟨call, res⟩ = some (name res))
    {rest : RocksResult call → RocksProg A} (hrest : ∀ res, Counts (rest res)) :
    Counts (.call call fun res => .call (.counter (name res)) fun _ => rest res) := by
  refine ⟨?_, fun res => ⟨?_, fun u => ⟨?_, ?_⟩⟩⟩
  · rintro _ ⟨name', rfl⟩ h
    exact hcall name' (Sum.inl.inj h)
  · intro op _
    rw [counting, hname]
    exact ⟨fun h => congrArg some (Sum.inl.inj h), fun h => congrArg Sum.inl (Option.some.inj h)⟩
  · exact counted_uncounted rfl (hrest res)
  · exact (hrest res).2

theorem counts_rocks (c : StoreCall) {rest : StoreResult c → RocksProg A}
    (hrest : ∀ res, Counts (rest res)) : Counts (rocks c >>= rest) := by
  cases c with
  | get key =>
    have hmethod : rocks (.get key) >>= rest = .call (.get key) fun res =>
        .call (.counter (if res.1.ok then text "rocksdb.get.success"
          else if res.1.isNotFound then text "rocksdb.get.not_found"
          else text "rocksdb.get.error")) fun _ =>
        rest (.ok (if res.1.ok then ⟨true, false, []⟩ else ⟨res.1.ok, res.1.isNotFound, []⟩,
          res.2)) := by
      show Prog.call _ _ = _
      congr 1
      funext ⟨⟨ok, isNotFound, message⟩, value⟩
      cases ok <;> cases isNotFound <;> rfl
    rw [hmethod]
    exact counts_method (fun _ h => by cases h) (fun _ => rfl) fun _ => hrest _
  | del key =>
    have hmethod : rocks (.del key) >>= rest = .call (.delete key) fun res =>
        .call (.counter (if res.isNotFound then text "rocksdb.delete.not_found"
          else if res.ok then text "rocksdb.delete.success"
          else text "rocksdb.delete.error")) fun _ =>
        rest (.ok ⟨res.ok, res.isNotFound, []⟩) := by
      show Prog.call _ _ = _
      congr 1
      funext ⟨ok, isNotFound, message⟩
      cases ok <;> cases isNotFound <;> rfl
    rw [hmethod]
    exact counts_method (fun _ h => by cases h) (fun _ => rfl) fun _ => hrest _
  | put key value =>
    have hmethod : rocks (.put key value) >>= rest = .call (.put key value) fun res =>
        .call (.counter (if res.ok then text "rocksdb.put.success"
          else text "rocksdb.put.error")) fun _ =>
        rest (.ok (if res.ok then ⟨true, false, []⟩ else ⟨false, false, res.message⟩)) := by
      show Prog.call _ _ = _
      congr 1
      funext ⟨ok, isNotFound, message⟩
      cases ok <;> rfl
    rw [hmethod]
    exact counts_method (fun _ h => by cases h) (fun _ => rfl) fun _ => hrest _
  | lock | unlock =>
    refine ⟨fun op hop h => ?_, fun res => ⟨counted_uncounted rfl (hrest res), (hrest res).2⟩⟩
    obtain ⟨name, rfl⟩ := hop
    cases h

/-- Whatever the service does with the store, each call of RocksDB is counted. -/
theorem counts_interpret (p : StoreProg A) : Counts (p.interpret rocks) := by
  induction p with
  | done a =>
    refine ⟨fun op _ h => ?_, trivial⟩
    cases h
  | call c next ih => exact counts_rocks c fun res => ih res

end Programs

theorem follow_rocks : Pool.Follow (fun q : Operation => q.program.interpret rocks) counting
    Counting where
  front q := (counts_interpret q.program).1
  chained q := (counts_interpret q.program).2

/-! ## The service and the background thread -/

/-- What a call does to the aggregator. RocksDB may answer anything. -/
def Recording (a : Aggregation) (e : RocksEvent) (a' : Aggregation) : Prop :=
  match e.1 with
  | .counter name => Stats.Step a (.record (.counter name 1)) a'
  | _ => a' = a

abbrev Counters (ι : Type) := Pool ι Aggregation Operation RocksCall RocksResult Reply

abbrev CountersAction (ι : Type) :=
  Action ι Aggregation Operation RocksCall RocksResult Reply

/-- A metric that is recorded elsewhere, as the gauges of an epoch are. -/
def Elsewhere (metric : Metric) : Prop :=
  ∀ name value, metric = .counter name value → name ∉ outcomes

/-- A step of a client, of the background thread or of whoever else records metrics. -/
inductive Monitored {ι : Type} [DecidableEq ι] :
    Counters ι → CountersAction ι ⊕ Activity → Counters ι → Prop
  | client {s s' : Counters ι} {l : CountersAction ι} :
      Pool.Step (fun q => q.program.interpret rocks) Recording (fun _ => True) s l s' →
      Monitored s (.inl l) s'
  | background {s : Counters ι} {l : Activity} {a : Aggregation} :
      Stats.Step s.world l a → (∀ metric, l = .record metric → Elsewhere metric) →
      Monitored s (.inr l) { s with world := a }

section Runs

variable {ι : Type}

/-- A call of RocksDB that ends in the outcome. -/
def operationsBy (name : Bytes) : CountersAction ι ⊕ Activity → Nat
  | .inl (.perform _ _ e) => if outcome e = some name then 1 else 0
  | _ => 0

/-- What the background thread hands to the client of statsd. -/
def reportedBy : CountersAction ι ⊕ Activity → List Metric
  | .inl _ => []
  | .inr l => l.handed

variable (ts : List (Transition (Counters ι) (CountersAction ι ⊕ Activity)))

def operations (name : Bytes) : Nat := (ts.map fun t => operationsBy name t.label).sum

def reported : List Metric := ts.flatMap fun t => reportedBy t.label

theorem owedBy_counting (name : Bytes) (l : CountersAction ι) :
    Pool.owedBy counting (.counter name) l = operationsBy name (.inl l) := by
  cases l with
  | start i q | finish i q past a => rfl
  | perform i q e =>
    have hcounting : counting e = some (.counter name) ↔ outcome e = some name := by
      rw [counting, Option.map_eq_some_iff]
      constructor
      · rintro ⟨name', he, hname⟩
        rw [he, RocksCall.counter.inj hname]
      · exact fun he => ⟨name, he, rfl⟩
    simp only [Pool.owedBy, operationsBy, hcounting]

section Step

variable [DecidableEq ι] [Fintype ι] {s s' : Counters ι} {name : Bytes}

/-- A step of a client: a call of RocksDB is owed its count, a count is recorded. -/
theorem client_conserves (name : Bytes) {l : CountersAction ι}
    (ht : Pool.OnTrack (fun q : Operation => q.program.interpret rocks) (fun _ => True) s)
    (hs : Pool.Step (fun q => q.program.interpret rocks) Recording (fun _ => True) s l s') :
    s.census (.counter name) + s.world.pending name + operationsBy name (.inl l) =
      (s'.census (.counter name) : Int) + s'.world.pending name := by
  have hlater : Counting (.counter name) := ⟨name, rfl⟩
  have hcensus := Pool.census_step follow_rocks ht hs hlater
  rw [owedBy_counting] at hcensus
  suffices hpending : s'.world.pending name = s.world.pending name +
      Pool.paidBy (.counter name) l by omega
  cases hs with
  | start _ _ => exact (Int.add_zero _).symm
  | finish _ => exact (Int.add_zero _).symm
  | @perform i q past op next r w _ hw =>
    cases op with
    | counter name' =>
      have hstep : Stats.Step s.world (.record (.counter name' 1)) w := hw
      have hconserves := step_conserves name hstep
      have hpaid : (Pool.paidBy (.counter name) (.perform i q ⟨RocksCall.counter name', r⟩ :
          CountersAction ι) : Int) = total name (Activity.record (.counter name' 1)).recorded := by
        by_cases hn : name' = name
        · subst hn
          simp [Pool.paidBy, Activity.recorded, total, Metric.amount]
        · simp [Pool.paidBy, Activity.recorded, total, Metric.amount, hn]
      have hhanded : total name (Activity.record (.counter name' 1)).handed = 0 := rfl
      show w.pending name = _
      omega
    | get _ | delete _ | put _ _ | lock | unlock =>
      obtain rfl : w = s.world := hw
      exact (Int.add_zero _).symm

/-- A step outside the clients moves counts, and records none of these. -/
theorem background_conserves {a a' : Aggregation} {l : Activity} (hname : name ∈ outcomes)
    (hs : Stats.Step a l a') (hl : ∀ metric, l = .record metric → Elsewhere metric) :
    a.pending name = total name l.handed + a'.pending name := by
  have hconserves := step_conserves name hs
  have hrecorded : total name l.recorded = 0 := by
    cases l with
    | record metric =>
      have hamount : metric.amount name = 0 := by
        cases metric with
        | counter name' value =>
          refine if_neg fun hn => ?_
          exact hl _ rfl name' value rfl (hn ▸ hname)
        | timer _ _ | gauge _ _ | set _ _ => rfl
      show metric.amount name + 0 = 0
      rw [hamount]
      rfl
    | _ => rfl
  omega

theorem monitored_conserves {l : CountersAction ι ⊕ Activity} (hname : name ∈ outcomes)
    (ht : Pool.OnTrack (fun q : Operation => q.program.interpret rocks) (fun _ => True) s)
    (hs : Monitored s l s') :
    s.census (.counter name) + s.world.pending name + operationsBy name l =
      total name (reportedBy l) + s'.census (.counter name) + s'.world.pending name := by
  cases hs with
  | @client _ l hs =>
    have hclient := client_conserves name ht hs
    show _ = (0 : Int) + s'.census (.counter name) + s'.world.pending name
    omega
  | @background l a hs hl =>
    have hbackground := background_conserves hname hs hl
    show s.census (.counter name) + s.world.pending name + (0 : Nat) =
      total name l.handed + (s.census (.counter name) : Int) + a.pending name
    omega

end Step

section OnTrack

variable [DecidableEq ι] {s s' : Counters ι}

/-- What clients do is not changed by a step outside them. -/
theorem onTrack_monitored {l : CountersAction ι ⊕ Activity}
    (ht : Pool.OnTrack (fun q : Operation => q.program.interpret rocks) (fun _ => True) s)
    (hs : Monitored s l s') :
    Pool.OnTrack (fun q : Operation => q.program.interpret rocks) (fun _ => True) s' := by
  cases hs with
  | client hs => exact Pool.onTrack_step _ Recording _ ht hs
  | background _ _ => exact ht

end OnTrack

/-- A call of RocksDB is counted, or is still owed its count. -/
theorem conserved_run [DecidableEq ι] [Fintype ι] {s : Counters ι}
    (h : Run Monitored (Pool.initial .initial) ts s) {name : Bytes} (hname : name ∈ outcomes) :
    Pool.OnTrack (fun q : Operation => q.program.interpret rocks) (fun _ => True) s ∧
      (operations ts name : Int) =
        total name (reported ts) + s.world.pending name + s.census (.counter name) := by
  refine h.history (fun _ => True) (fun ts s =>
    Pool.OnTrack (fun q : Operation => q.program.interpret rocks) (fun _ => True) s ∧
      (operations ts name : Int) =
        total name (reported ts) + s.world.pending name + s.census (.counter name))
    ⟨Pool.onTrack_initial _ _ _, ?_⟩ ?_ fun _ _ => trivial
  · rw [Pool.census_initial]
    rfl
  · rintro ts s l s' - ⟨ht, hts⟩ hs -
    refine ⟨onTrack_monitored ht hs, ?_⟩
    have hstep := monitored_conserves hname ht hs
    have hoperations : operations (ts ++ [⟨s, l, s'⟩]) name =
        operations ts name + operationsBy name l := by
      simp [operations]
    have hreported : total name (reported (ts ++ [⟨s, l, s'⟩])) =
        total name (reported ts) + total name (reportedBy l) := by
      rw [reported, List.flatMap_append, total_append]
      simp [reported]
    omega

/-- **Every operation is counted once**, under its outcome: the calls of RocksDB that
ended in it are the counts handed to the client of statsd, those that are swapped out and
not sent yet, those in the map and those that a client is about to record. -/
theorem operations_counted [DecidableEq ι] [Fintype ι] {s : Counters ι}
    (h : Run Monitored (Pool.initial .initial) ts s) {name : Bytes} (hname : name ∈ outcomes) :
    (operations ts name : Int) = total name (reported ts) +
      total name s.world.background.unsent + s.world.aggregator.count name +
      s.census (.counter name) := by
  have heq := (conserved_run ts h hname).2
  unfold Aggregation.pending at heq
  omega

end Runs

namespace Monitored

variable {ι : Type} [DecidableEq ι] {s : Counters ι} {i : ι} {q : Operation}
  {past : List (Aggregation × RocksEvent)}

theorem found {key : Bytes} {next : RocksResult (.get key) → RocksProg Reply} (value : Bytes)
    (hi : s.client i = .busy q past (.call (.get key) next)) :
    Monitored s (.inl (.perform i q ⟨.get key, (⟨true, false, []⟩, value)⟩))
      (s.move i (.busy q (past ++ [(s.world, ⟨.get key, (⟨true, false, []⟩, value)⟩)])
        (next (⟨true, false, []⟩, value))) s.world) :=
  .client (.perform hi rfl)

theorem counted {name : Bytes} {next : Unit → RocksProg Reply}
    (hi : s.client i = .busy q past (.call (.counter name) next)) :
    Monitored s (.inl (.perform i q ⟨.counter name, ()⟩))
      (s.move i (.busy q (past ++ [(s.world, ⟨.counter name, ()⟩)]) (next ()))
        { s.world with aggregator := s.world.aggregator.record (.counter name 1) }) :=
  .client (.perform hi .record)

end Monitored

/-- Two lookups, of which one has been counted. -/
theorem operations_counted_lookups :
    ∃ (ts : List (Transition (Counters Bool) (CountersAction Bool ⊕ Activity)))
      (s : Counters Bool), Run Monitored (Pool.initial .initial) ts s ∧
      s.census (.counter (text "rocksdb.get.success")) = 1 ∧
      (operations ts (text "rocksdb.get.success") : Int) =
        total (text "rocksdb.get.success") (reported ts) +
          total (text "rocksdb.get.success") s.world.background.unsent +
          s.world.aggregator.count (text "rocksdb.get.success") +
          s.census (.counter (text "rocksdb.get.success")) := by
  let s₀ : Counters Bool := Pool.initial .initial
  have h₀ : Run Monitored s₀ [] s₀ := .start
  have h₁ := h₀.snoc (.client (.start (i := true) (q := .httpGet (text "k")) rfl trivial))
  have h₂ := h₁.snoc (.client (.start (i := false) (q := .httpGet (text "k")) rfl trivial))
  have h₃ := h₂.snoc (.found (i := true) (text "v") rfl)
  have h₄ := h₃.snoc (.found (i := false) (text "v") rfl)
  have h₅ := h₄.snoc (.counted (i := true) rfl)
  exact ⟨_, _, h₅, by decide, operations_counted _ h₅ (by decide)⟩

end Quitsies.Service
