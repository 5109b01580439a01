import Mathlib.Data.Finset.Lattice.Lemmas
import Mathlib.Algebra.BigOperators.Group.List.Basic
import Mathlib.Data.Multiset.Basic
import Quitsies.Stats.Background

/-!
# What a statsd server makes of the metrics

A server sums counters, keeps the last value of a gauge, and collects the samples of a
timer and the distinct values of a set. The aggregator sends it one metric for a name
and kind; sending every call directly leaves it in the same state only where nothing
is lost by that.
-/

namespace Quitsies.Stats

open Text Interaction

/-! ## The server -/

@[ext]
structure Server where
  sets : Bytes → Finset Int
  timers : Bytes → Multiset Int
  gauges : Bytes → Option Int
  counters : Bytes → Int

namespace Server

def initial : Server := ⟨fun _ => ∅, fun _ => 0, fun _ => none, fun _ => 0⟩

def addSet (s : Server) (name : Bytes) (value : Int) : Server :=
  { s with sets := Function.update s.sets name (insert value (s.sets name)) }

def addTimer (s : Server) (name : Bytes) (value : Int) : Server :=
  { s with timers := Function.update s.timers name (value ::ₘ s.timers name) }

def addGauge (s : Server) (name : Bytes) (value : Int) : Server :=
  { s with gauges := Function.update s.gauges name (some value) }

def addCounter (s : Server) (name : Bytes) (value : Int) : Server :=
  { s with counters := Function.update s.counters name (s.counters name + value) }

/-- What a datagram does to the server. -/
def receive (s : Server) (d : Bytes) : Server :=
  match parse d with
  | none => s
  | some (name, value, suffix) =>
    if suffix = text "s" then s.addSet name value
    else if suffix = text "ms" then s.addTimer name value
    else if suffix = text "g" then s.addGauge name value
    else if suffix = text "c" then s.addCounter name value
    else s

/-- A metric sent through the client. -/
def deliver (client : Statsd) (s : Server) (metric : Metric) : Server :=
  match client.send metric with
  | .datagram d => s.receive d
  | _ => s

end Server

/-- What the background loop swaps out, its four blocks in their order. -/
def Aggregator.flush (a : Aggregator) : List Metric :=
  let (sets, a) := a.swap .sets
  let (timers, a) := a.swap .timers
  let (gauges, a) := a.swap .gauges
  let (counters, _) := a.swap .counters
  sets ++ (timers ++ (gauges ++ counters))

/-- The maps behind a flush and these calls. -/
def recordCalls (calls : List Metric) : Aggregator := calls.foldl Aggregator.record .construct

/-- Every call sent through the client. -/
def direct (client : Statsd) (calls : List Metric) (s : Server) : Server :=
  calls.foldl (Server.deliver client) s

/-- The calls recorded, and then flushed. -/
def aggregated (client : Statsd) (calls : List Metric) (s : Server) : Server :=
  (recordCalls calls).flush.foldl (Server.deliver client) s

/-- A turn of the loop that finds the calls recorded sends this flush. -/
theorem flushed_recordCalls (calls : List Metric) (sendTo : Metric → Bool) :
    ((⟨false, [], fun _ => [], sendTo⟩ : Turn).flushed (recordCalls calls)).1 =
      (recordCalls calls).flush := by
  simp [Turn.flushed, Turn.swapAll, Turn.swapped, Turn.recordOthers, recordEpochs, Aggregator.flush]

/-! ## What the server reads -/

namespace Metric

def kind : Metric → Kind
  | counter _ _ => .counters
  | timer _ _ => .timers
  | gauge _ _ => .gauges
  | set _ _ => .sets

end Metric

/-- What the conversion of a mask makes of the value. -/
def Kind.converted : Kind → Int → Int
  | .sets, value => low32 value
  | .timers, value => unsigned64 value
  | .gauges, value => unsigned64 value
  | .counters, value => low32 value

/-- The metric is sent, in a datagram that says its name behind a fixed front, and its
value as it is converted. -/
def Statsd.Sends (client : Statsd) (front : Bytes) (metric : Metric) : Prop :=
  ∃ d, client.send metric = .datagram d ∧
    parse d = some (front ++ metric.name, metric.kind.converted metric.value, metric.suffix)

/-- With a prefix that is only text, what fits is sent. -/
theorem sends_plain {pre : Bytes} {metric : Metric} (hpercent : 37 ∉ pre) (hnul : 0 ∉ pre)
    (hname : 0 ∉ metric.name) (hfits : (Statsd.construct pre).fits metric = true) :
    (Statsd.construct pre).Sends (pre ++ text ".") metric := by
  obtain ⟨d, hd⟩ := (fits_iff _ metric).mp hfits
  refine ⟨d, hd, ?_⟩
  rw [send_eq] at hd
  have hprinted := (sendStat_datagram hd).symm.trans (send_plain hpercent hnul hname)
  obtain rfl := Option.some.inj hprinted
  cases metric with
  | counter name value => exact parse_datagram pre (.counter name (low32 value))
  | timer name value => exact parse_datagram pre (.timer name (unsigned64 value))
  | gauge name value => exact parse_datagram pre (.gauge name (unsigned64 value))
  | set name value => exact parse_datagram pre (.set name (low32 value))

/-- The value that the metric gives the name. -/
def Metric.valueOf (kind : Kind) (name : Bytes) (metric : Metric) : Option Int :=
  if metric.kind = kind ∧ metric.name = name then some metric.value else none

/-- The values that a name is given, in their order. -/
def values (kind : Kind) (name : Bytes) (metrics : List Metric) : List Int :=
  metrics.filterMap (Metric.valueOf kind name)

/-- The values that the server reads for a name. -/
def readings (front : Bytes) (kind : Kind) (name : Bytes) (metrics : List Metric) : List Int :=
  metrics.filterMap fun metric =>
    if metric.kind = kind ∧ front ++ metric.name = name then
      some (kind.converted metric.value)
    else none

theorem readings_cons_self (front : Bytes) {kind : Kind} {metric : Metric}
    (h : metric.kind = kind) (metrics : List Metric) :
    readings front kind (front ++ metric.name) (metric :: metrics) =
      kind.converted metric.value :: readings front kind (front ++ metric.name) metrics :=
  List.filterMap_cons_some (if_pos ⟨h, rfl⟩)

theorem readings_cons_other {front name : Bytes} {kind : Kind} {metric : Metric}
    {metrics : List Metric} (h : ¬ (metric.kind = kind ∧ front ++ metric.name = name)) :
    readings front kind name (metric :: metrics) = readings front kind name metrics :=
  List.filterMap_cons_none (if_neg h)

theorem readings_front (front : Bytes) (kind : Kind) (name : Bytes) (metrics : List Metric) :
    readings front kind (front ++ name) metrics =
      (values kind name metrics).map kind.converted := by
  unfold readings values
  rw [List.map_filterMap]
  congr 1
  funext metric
  simp only [Metric.valueOf, List.append_cancel_left_eq]
  split <;> rfl

theorem readings_other {front : Bytes} (kind : Kind) {name : Bytes}
    (h : ∀ name', front ++ name' ≠ name) (metrics : List Metric) :
    readings front kind name metrics = [] := by
  apply List.filterMap_eq_nil_iff.mpr
  intro metric _
  exact if_neg fun hmatch => h metric.name hmatch.2

namespace Server

/-- A metric as it is read, behind the front of its name. -/
def take (front : Bytes) (s : Server) (metric : Metric) : Server :=
  match metric.kind with
  | .sets => s.addSet (front ++ metric.name) (low32 metric.value)
  | .timers => s.addTimer (front ++ metric.name) (unsigned64 metric.value)
  | .gauges => s.addGauge (front ++ metric.name) (unsigned64 metric.value)
  | .counters => s.addCounter (front ++ metric.name) (low32 metric.value)

theorem deliver_eq {client : Statsd} {front : Bytes} {metric : Metric}
    (h : client.Sends front metric) (s : Server) :
    s.deliver client metric = s.take front metric := by
  obtain ⟨d, hd, hparse⟩ := h
  have hreceive : s.deliver client metric = s.receive d := by
    unfold deliver
    rw [hd]
  rw [hreceive, receive, hparse]
  cases metric <;> rfl

/-- The state behind metrics that are all read. -/
def after (front : Bytes) (metrics : List Metric) (s : Server) : Server where
  sets name := s.sets name ∪ (readings front .sets name metrics).toFinset
  timers name := s.timers name + readings front .timers name metrics
  gauges name := (readings front .gauges name metrics).getLast?.or (s.gauges name)
  counters name := s.counters name + (readings front .counters name metrics).sum

/-- One metric is read before the others. -/
theorem after_take (front : Bytes) (metric : Metric) (metrics : List Metric) (s : Server) :
    (s.take front metric).after front metrics = s.after front (metric :: metrics) := by
  have hother {kind : Kind} (h : metric.kind ≠ kind) (name : Bytes) :
      readings front kind name (metric :: metrics) = readings front kind name metrics :=
    readings_cons_other fun hmatch => h hmatch.1
  have hname (kind : Kind) {name : Bytes} (h : ¬ name = front ++ metric.name) :
      readings front kind name (metric :: metrics) = readings front kind name metrics :=
    readings_cons_other fun hmatch => h hmatch.2.symm
  cases hk : metric.kind with
  | sets =>
    have hself := readings_cons_self front hk metrics
    ext name : 2
    · by_cases hn : name = front ++ metric.name
      · subst hn
        simp [after, take, hk, addSet, hself, Kind.converted, Finset.insert_union,
          Finset.union_insert]
      · simp [after, take, hk, addSet, hname .sets hn, hn]
    all_goals simp [after, take, hk, addSet, hother]
  | timers =>
    have hself := readings_cons_self front hk metrics
    ext name : 2
    case timers =>
      by_cases hn : name = front ++ metric.name
      · subst hn
        simp [after, take, hk, addTimer, hself, Kind.converted, ← Multiset.cons_coe,
          Multiset.add_cons]
      · simp [after, take, hk, addTimer, hname .timers hn, hn]
    all_goals simp [after, take, hk, addTimer, hother]
  | gauges =>
    have hself := readings_cons_self front hk metrics
    ext name : 2
    case gauges =>
      by_cases hn : name = front ++ metric.name
      · subst hn
        simp [after, take, hk, addGauge, hself, Kind.converted, List.getLast?_cons]
      · simp [after, take, hk, addGauge, hname .gauges hn, hn]
    all_goals simp [after, take, hk, addGauge, hother]
  | counters =>
    have hself := readings_cons_self front hk metrics
    ext name : 2
    case counters =>
      by_cases hn : name = front ++ metric.name
      · subst hn
        simp [after, take, hk, addCounter, hself, Kind.converted, Int.add_assoc]
      · simp [after, take, hk, addCounter, hname .counters hn, hn]
    all_goals simp [after, take, hk, addCounter, hother]

theorem foldl_take (front : Bytes) (metrics : List Metric) (s : Server) :
    metrics.foldl (take front) s = s.after front metrics := by
  induction metrics generalizing s with
  | nil => ext <;> simp [after, readings]
  | cons metric metrics ih =>
    rw [List.foldl_cons, ih, after_take]

theorem foldl_deliver {client : Statsd} {front : Bytes} {metrics : List Metric}
    (h : ∀ metric ∈ metrics, client.Sends front metric) (s : Server) :
    metrics.foldl (deliver client) s = s.after front metrics := by
  rw [← foldl_take]
  induction metrics generalizing s with
  | nil => rfl
  | cons metric metrics ih =>
    obtain ⟨hhead, htail⟩ := List.forall_mem_cons.mp h
    rw [List.foldl_cons, List.foldl_cons, deliver_eq hhead, ih htail]

end Server

/-! ## What the maps keep -/

namespace Aggregator

/-- What is in the map of a kind under a name. -/
def lookup (a : Aggregator) (kind : Kind) (name : Bytes) : Option Int :=
  match kind with
  | .sets => a.sets[name]?
  | .timers => a.timers[name]?.map Int.ofNat
  | .gauges => a.gauges[name]?.map Int.ofNat
  | .counters => a.counters[name]?

end Aggregator

/-- A counter is added to what is there, all else takes its place. -/
def Kind.combined (kind : Kind) (previous : Option Int) (value : Int) : Int :=
  match kind with
  | .counters => previous.getD 0 + value
  | _ => value

/-- What the map of a kind keeps of the values that a name is given. -/
def Kind.merged (kind : Kind) (values : List Int) : Option Int :=
  match kind with
  | .counters => if values = [] then none else some values.sum
  | _ => values.getLast?

theorem merged_concat (kind : Kind) (values : List Int) (value : Int) :
    kind.merged (values ++ [value]) = some (kind.combined (kind.merged values) value) := by
  cases kind with
  | sets | timers | gauges => exact List.getLast?_concat
  | counters =>
    by_cases h : values = []
    · simp [Kind.merged, Kind.combined, h]
    · simp [Kind.merged, Kind.combined, h]

/-- Recording changes no map but that of the metric's kind. -/
theorem lookup_record_other (a : Aggregator) {metric : Metric} {kind : Kind}
    (h : metric.kind ≠ kind) (name : Bytes) :
    (a.record metric).lookup kind name = a.lookup kind name := by
  cases metric with
  | set | timer | gauge => cases kind <;> first | rfl | exact absurd rfl h
  | counter name' value =>
    show (a.counter name' value).lookup kind name = a.lookup kind name
    unfold Aggregator.counter
    split <;> cases kind <;> first | rfl | exact absurd rfl h

theorem lookup_record_own (a : Aggregator) (metric : Metric) (name : Bytes) :
    (a.record metric).lookup metric.kind name =
      if metric.name = name then
        some (metric.kind.combined (a.lookup metric.kind name) metric.value)
      else a.lookup metric.kind name := by
  by_cases hn : metric.name = name
  · subst hn
    rw [if_pos rfl]
    cases metric with
    | set | timer | gauge =>
      simp [Aggregator.record, Aggregator.set, Aggregator.timer, Aggregator.gauge,
        Aggregator.lookup, Metric.kind, Metric.name, Metric.value, Kind.combined]
    | counter name value =>
      cases hc : a.counters[name]? <;> simp [Aggregator.record, Aggregator.counter,
        Aggregator.lookup, Metric.kind, Metric.name, Metric.value, Kind.combined, hc]
  · rw [if_neg hn]
    cases metric with
    | set name' | timer name' | gauge name' =>
      have hne : ¬ name' = name := hn
      simp [Aggregator.record, Aggregator.set, Aggregator.timer, Aggregator.gauge,
        Aggregator.lookup, Metric.kind, Std.TreeMap.getElem?_insert, hne]
    | counter name' value =>
      have hne : ¬ name' = name := hn
      cases hc : a.counters[name']? <;> simp [Aggregator.record, Aggregator.counter,
        Aggregator.lookup, Metric.kind, Std.TreeMap.getElem?_insert, hc, hne]

theorem lookup_record (a : Aggregator) (metric : Metric) (kind : Kind) (name : Bytes) :
    (a.record metric).lookup kind name =
      if metric.kind = kind ∧ metric.name = name then
        some (kind.combined (a.lookup kind name) metric.value)
      else a.lookup kind name := by
  by_cases hk : metric.kind = kind
  · subst hk
    rw [lookup_record_own]
    simp only [true_and]
  · rw [lookup_record_other a hk, if_neg fun h => hk h.1]

theorem values_concat (kind : Kind) (name : Bytes) (metrics : List Metric) (metric : Metric) :
    values kind name (metrics ++ [metric]) =
      if metric.kind = kind ∧ metric.name = name then
        values kind name metrics ++ [metric.value]
      else values kind name metrics := by
  rw [values, List.filterMap_append]
  split <;> simp [values, Metric.valueOf, *]

/-- The maps keep the sum of a counter and the last value of everything else. -/
theorem lookup_recordCalls (calls : List Metric) (kind : Kind) (name : Bytes) :
    (recordCalls calls).lookup kind name = kind.merged (values kind name calls) := by
  induction calls using List.reverseRecOn with
  | nil =>
    cases kind <;> simp [recordCalls, Aggregator.construct, Aggregator.lookup, values,
      Kind.merged]
  | append_singleton calls metric ih =>
    rw [recordCalls, List.foldl_concat, lookup_record, values_concat]
    split
    · rw [merged_concat, ← ih]
      rfl
    · exact ih

theorem values_toList {α : Type} (t : Std.TreeMap Bytes α) {f : Bytes × α → Metric} {g : α → Int}
    {kind : Kind} (h : ∀ e, (f e).kind = kind ∧ (f e).name = e.1 ∧ (f e).value = g e.2)
    (name : Bytes) : values kind name (t.toList.map f) = (t[name]?.map g).toList := by
  have hother : ∀ e, e.1 ≠ name → (Metric.valueOf kind name ∘ f) e = none := by
    intro e hne
    obtain ⟨-, hname, -⟩ := h e
    exact if_neg fun hmatch => hne (hname.symm.trans hmatch.2)
  have hself : ∀ value, (Metric.valueOf kind name ∘ f) (name, value) = some (g value) := by
    intro value
    obtain ⟨hkind, hname, hvalue⟩ := h (name, value)
    show (if (f (name, value)).kind = kind ∧ (f (name, value)).name = name then
      some (f (name, value)).value else none) = some (g value)
    rw [if_pos ⟨hkind, hname⟩, hvalue]
  rw [values, List.filterMap_map]
  cases hv : t[name]? with
  | none =>
    apply List.filterMap_eq_nil_iff.mpr
    intro e he
    apply hother
    rintro rfl
    rw [Std.TreeMap.mem_toList_iff_getElem?_eq_some.mp he] at hv
    cases hv
  | some value =>
    obtain ⟨es, es', hes⟩ :=
      List.append_of_mem (Std.TreeMap.mem_toList_iff_getElem?_eq_some.mpr hv)
    have hd : t.toList.Pairwise fun e e' => ¬ compare e.1 e'.1 = .eq :=
      Std.TreeMap.distinct_keys_toList
    rw [hes, List.pairwise_append, List.pairwise_cons] at hd
    obtain ⟨-, ⟨hback, -⟩, hfront⟩ := hd
    have hes_nil : ∀ e ∈ es, e.1 ≠ name := by
      intro e he hn
      exact hfront e he _ List.mem_cons_self (hn ▸ Std.ReflCmp.compare_self)
    have hes'_nil : ∀ e ∈ es', e.1 ≠ name := by
      intro e he hn
      exact hback e he (hn ▸ Std.ReflCmp.compare_self)
    rw [hes, List.filterMap_append, List.filterMap_cons_some (hself value),
      List.filterMap_eq_nil_iff.mpr fun e he => hother e (hes_nil e he),
      List.filterMap_eq_nil_iff.mpr fun e he => hother e (hes'_nil e he)]
    rfl

theorem swap_kind (a : Aggregator) (kind : Kind) :
    ∀ metric ∈ (a.swap kind).1, metric.kind = kind := by
  intro metric hmetric
  cases kind <;>
  · obtain ⟨_, _, rfl⟩ := List.mem_map.mp hmetric
    rfl

theorem values_swap (a : Aggregator) (kind : Kind) (name : Bytes) :
    values kind name (a.swap kind).1 = (a.lookup kind name).toList := by
  cases kind with
  | sets =>
    have hsets := values_toList a.sets (f := fun e => .set e.1 e.2) (g := id)
      (fun _ => ⟨rfl, rfl, rfl⟩) name
    rwa [Option.map_id] at hsets
  | timers =>
    exact values_toList a.timers (f := fun e => .timer e.1 e.2) (g := Int.ofNat)
      (fun _ => ⟨rfl, rfl, rfl⟩) name
  | gauges =>
    exact values_toList a.gauges (f := fun e => .gauge e.1 e.2) (g := Int.ofNat)
      (fun _ => ⟨rfl, rfl, rfl⟩) name
  | counters =>
    have hcounters := values_toList a.counters (f := fun e => .counter e.1 e.2) (g := id)
      (fun _ => ⟨rfl, rfl, rfl⟩) name
    rwa [Option.map_id] at hcounters

theorem values_swap_other (a : Aggregator) {kind kind' : Kind} (h : kind' ≠ kind) (name : Bytes) :
    values kind name (a.swap kind').1 = [] := by
  apply List.filterMap_eq_nil_iff.mpr
  intro metric hmetric
  exact if_neg fun hmatch => h ((swap_kind a kind' metric hmetric).symm.trans hmatch.1)

theorem lookup_swap_other (a : Aggregator) {kind kind' : Kind} (h : kind' ≠ kind) (name : Bytes) :
    (a.swap kind').2.lookup kind name = a.lookup kind name := by
  cases kind <;> cases kind' <;> first | rfl | exact absurd rfl h

/-- A flush has what the map keeps, once. -/
theorem values_flush (a : Aggregator) (kind : Kind) (name : Bytes) :
    values kind name a.flush = (a.lookup kind name).toList := by
  have happend (ms ms' : List Metric) :
      values kind name (ms ++ ms') = values kind name ms ++ values kind name ms' :=
    List.filterMap_append
  simp only [Aggregator.flush, happend]
  cases kind <;> simp [values_swap, values_swap_other, lookup_swap_other]

theorem values_flush_recordCalls (calls : List Metric) (kind : Kind) (name : Bytes) :
    values kind name (recordCalls calls).flush =
      (kind.merged (values kind name calls)).toList := by
  rw [values_flush, lookup_recordCalls]

/-! ## Sending and aggregating -/

section Readings

variable (front : Bytes) (metrics metrics' : List Metric) (s : Server)

/-- Two lists of metrics leave the server in one state if and only if what it reads
for each name comes to the same. -/
theorem after_eq_iff :
    s.after front metrics = s.after front metrics' ↔ ∀ name,
      s.sets (front ++ name) ∪ (readings front .sets (front ++ name) metrics).toFinset =
        s.sets (front ++ name) ∪ (readings front .sets (front ++ name) metrics').toFinset ∧
      (readings front .timers (front ++ name) metrics : Multiset Int) =
        readings front .timers (front ++ name) metrics' ∧
      (readings front .gauges (front ++ name) metrics).getLast?.or (s.gauges (front ++ name)) =
        (readings front .gauges (front ++ name) metrics').getLast?.or (s.gauges (front ++ name)) ∧
      (readings front .counters (front ++ name) metrics).sum =
        (readings front .counters (front ++ name) metrics').sum := by
  constructor
  · intro h name
    have hsets := congrFun (congrArg Server.sets h) (front ++ name)
    have htimers := congrFun (congrArg Server.timers h) (front ++ name)
    have hgauges := congrFun (congrArg Server.gauges h) (front ++ name)
    have hcounters := congrFun (congrArg Server.counters h) (front ++ name)
    exact ⟨hsets, Multiset.add_right_inj.mp htimers, hgauges, Int.add_left_cancel hcounters⟩
  · intro h
    have hname (name : Bytes) : (∃ name', front ++ name' = name) ∨
        ∀ kind, readings front kind name metrics = readings front kind name metrics' := by
      by_cases hex : ∃ name', front ++ name' = name
      · exact .inl hex
      · have hne : ∀ name', front ++ name' ≠ name := fun name' he => hex ⟨name', he⟩
        exact .inr fun kind => by rw [readings_other kind hne, readings_other kind hne]
    ext name : 2 <;> simp only [Server.after] <;> rcases hname name with ⟨name, rfl⟩ | hsame
    · rw [(h name).1]
    · rw [hsame]
    · rw [(h name).2.1]
    · rw [hsame]
    · rw [(h name).2.2.1]
    · rw [hsame]
    · rw [(h name).2.2.2]
    · rw [hsame]

end Readings

theorem sets_iff (old : Finset Int) (values : List Int) :
    (old ∪ (((Kind.sets.merged values).toList).map Kind.sets.converted).toFinset =
      old ∪ (values.map Kind.sets.converted).toFinset) ↔
      ∀ value ∈ values, low32 value ∈ old ∨ low32 value ∈ values.getLast?.map low32 := by
  constructor
  · intro h value hvalue
    have hmem : low32 value ∈ old ∪ (values.map Kind.sets.converted).toFinset := by
      apply Finset.mem_union_right
      rw [List.mem_toFinset]
      exact List.mem_map_of_mem hvalue
    rw [← h, Finset.mem_union, List.mem_toFinset] at hmem
    refine hmem.imp_right fun hlast => ?_
    simpa [Kind.merged, Kind.converted] using hlast
  · intro h
    ext value
    simp only [Finset.mem_union, List.mem_toFinset, List.mem_map, Option.mem_toList]
    constructor
    · rintro (hold | ⟨last, hlast, rfl⟩)
      · exact .inl hold
      · exact .inr ⟨last, List.mem_of_getLast? hlast, rfl⟩
    · rintro (hold | ⟨value, hvalue, rfl⟩)
      · exact .inl hold
      · refine (h value hvalue).imp_right fun hlast => ?_
        obtain ⟨last, hlast, he⟩ := Option.map_eq_some_iff.mp hlast
        exact ⟨last, hlast, he⟩

theorem timers_iff (values : List Int) :
    ((((Kind.timers.merged values).toList).map Kind.timers.converted : List Int) : Multiset Int) =
      ((values.map Kind.timers.converted : List Int) : Multiset Int) ↔ values.length ≤ 1 := by
  have hkept : (Kind.timers.merged values).toList.length ≤ 1 := by
    cases Kind.timers.merged values <;> simp
  constructor
  · intro h
    have hcard := congrArg Multiset.card h
    simp only [Multiset.coe_card, List.length_map] at hcard
    omega
  · intro h
    match values, h with
    | [], _ => rfl
    | [_], _ => rfl

theorem gauges_eq (values : List Int) :
    (((Kind.gauges.merged values).toList).map Kind.gauges.converted).getLast? =
      (values.map Kind.gauges.converted).getLast? := by
  cases h : values.getLast? with
  | none => simp [Kind.merged, h]
  | some last => simp [Kind.merged, h]

theorem counters_iff (values : List Int) :
    (((Kind.counters.merged values).toList).map Kind.counters.converted).sum =
      (values.map Kind.counters.converted).sum ↔
      -2 ^ 31 ≤ (values.map low32).sum ∧ (values.map low32).sum < 2 ^ 31 := by
  rw [← low32_sum_eq_iff]
  by_cases h : values = []
  · subst h
    exact iff_of_true rfl rfl
  · have hkept : (Kind.counters.merged values).toList = [values.sum] := by
      simp [Kind.merged, h]
    rw [hkept, List.map_singleton, List.sum_singleton]
    rfl

/-- **Aggregating refines sending directly** if and only if no timer is recorded twice
under a name, every value of a set is known to the server or the last one recorded, and the
increments of a counter, each as it is converted, add up within an `int`. -/
theorem aggregated_eq_iff {client : Statsd} {front : Bytes} {calls : List Metric} (s : Server)
    (hcalls : ∀ metric ∈ calls, client.Sends front metric)
    (hflush : ∀ metric ∈ (recordCalls calls).flush, client.Sends front metric) :
    aggregated client calls s = direct client calls s ↔ ∀ name,
      (values .timers name calls).length ≤ 1 ∧
      (∀ value ∈ values .sets name calls, low32 value ∈ s.sets (front ++ name) ∨
        low32 value ∈ (values .sets name calls).getLast?.map low32) ∧
      -2 ^ 31 ≤ ((values .counters name calls).map low32).sum ∧
      ((values .counters name calls).map low32).sum < 2 ^ 31 := by
  rw [aggregated, direct, Server.foldl_deliver hflush, Server.foldl_deliver hcalls, after_eq_iff]
  refine forall_congr' fun name => ?_
  simp only [readings_front, values_flush_recordCalls]
  rw [sets_iff, timers_iff, gauges_eq, counters_iff]
  constructor
  · intro h
    exact ⟨h.2.1, h.1, h.2.2.2⟩
  · intro h
    exact ⟨h.2.1, h.1, rfl, h.2.2⟩

def mixedCalls : List Metric :=
  [.counter (text "hits") 1, .timer (text "took") 5, .set (text "users") 3,
    .gauge (text "open") 7, .set (text "users") 4, .counter (text "hits") 2]

/-- Metrics of every kind, for a server that has heard of the first user. -/
theorem aggregated_hits :
    aggregated (.construct (text "q")) mixedCalls (Server.initial.addSet (text "q.users") 3) =
      direct (.construct (text "q")) mixedCalls (Server.initial.addSet (text "q.users") 3) := by
  have hfits : ∀ metric ∈ mixedCalls ++ (recordCalls mixedCalls).flush,
      0 ∉ metric.name ∧ (Statsd.construct (text "q")).fits metric = true := by
    decide
  have hsends := fun metric hmetric =>
    sends_plain (by decide) (by decide) (hfits metric hmetric).1 (hfits metric hmetric).2
  refine (aggregated_eq_iff _ (fun metric h => hsends metric (List.mem_append_left _ h))
    fun metric h => hsends metric (List.mem_append_right _ h)).mpr fun name => ⟨?_, ?_, ?_⟩
  · by_cases h : text "took" = name <;>
      simp [mixedCalls, values, Metric.valueOf, Metric.kind, Metric.name, h]
  · by_cases h : text "users" = name
    · subst h
      decide
    · simp [mixedCalls, values, Metric.valueOf, Metric.kind, Metric.name, h]
  · by_cases h : text "hits" = name
    · subst h
      decide
    · simp [mixedCalls, values, Metric.valueOf, Metric.kind, Metric.name, h]

/-- Of two samples of a timer only one arrives, and so of two values of a set. -/
theorem aggregated_loses :
    aggregated (.construct (text "q")) [.timer (text "t") 1, .timer (text "t") 2] .initial ≠
        direct (.construct (text "q")) [.timer (text "t") 1, .timer (text "t") 2] .initial ∧
      aggregated (.construct (text "q")) [.set (text "s") 1, .set (text "s") 2] .initial ≠
        direct (.construct (text "q")) [.set (text "s") 1, .set (text "s") 2] .initial := by
  constructor
  · intro h
    exact absurd (congrFun (congrArg Server.timers h) (text "q.t")) (by decide)
  · intro h
    exact absurd (congrFun (congrArg Server.sets h) (text "q.s")) (by decide)

end Quitsies.Stats
