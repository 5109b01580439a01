import Std.Data.TreeMap
import Quitsies.Interaction.Run
import Quitsies.Text.Bytes

/-!
# `stats::statsd_aggregator`

Any thread records metrics in four maps, each guarded by its own mutex. The
background thread swaps the maps out one after the other and hands what was in
them to the statsd client, element by element and without a lock.
-/

namespace Quitsies.Stats

open Interaction

/-- A metric, as it is recorded and as it is handed to the client. -/
inductive Metric where
  | counter (name : Bytes) (value : Int)
  | timer (name : Bytes) (value : Nat)
  | gauge (name : Bytes) (value : Nat)
  | set (name : Bytes) (value : Int)
  deriving DecidableEq

/-- The members of `statsd_aggregator` that threads share. -/
structure Aggregator where
  sets : Std.TreeMap Bytes Int
  timers : Std.TreeMap Bytes Nat
  gauges : Std.TreeMap Bytes Nat
  counters : Std.TreeMap Bytes Int
  backgroundRunning : Bool

namespace Aggregator

def construct : Aggregator := ⟨∅, ∅, ∅, ∅, true⟩

/-- The source adds `intmax_t`s: this is its sum as long as that fits one. -/
def counter (a : Aggregator) (name : Bytes) (value : Int) : Aggregator :=
  match a.counters[name]? with
  | some count => { a with counters := a.counters.insert name (count + value) }
  | none => { a with counters := a.counters.insert name value }

def timer (a : Aggregator) (name : Bytes) (value : Nat) : Aggregator :=
  { a with timers := a.timers.insert name value }

def gauge (a : Aggregator) (name : Bytes) (value : Nat) : Aggregator :=
  { a with gauges := a.gauges.insert name value }

def set (a : Aggregator) (name : Bytes) (value : Int) : Aggregator :=
  { a with sets := a.sets.insert name value }

def record (a : Aggregator) : Metric → Aggregator
  | .counter name value => a.counter name value
  | .timer name value => a.timer name value
  | .gauge name value => a.gauge name value
  | .set name value => a.set name value

end Aggregator

/-- The blocks of the background loop that flush a map, in their order. -/
inductive Kind where
  | sets
  | timers
  | gauges
  | counters
  deriving DecidableEq

/-- The `std::swap` of a block with an empty map: what the block will send, in the
order of the map's keys, and what is left. -/
def Aggregator.swap (a : Aggregator) : Kind → List Metric × Aggregator
  | .sets => (a.sets.toList.map fun set => .set set.1 set.2, { a with sets := ∅ })
  | .timers => (a.timers.toList.map fun timer => .timer timer.1 timer.2, { a with timers := ∅ })
  | .gauges => (a.gauges.toList.map fun gauge => .gauge gauge.1 gauge.2, { a with gauges := ∅ })
  | .counters =>
    (a.counters.toList.map fun count => .counter count.1 count.2, { a with counters := ∅ })

/-- Where the background thread is in its loop. -/
inductive Background where
  | loop
  | epochs
  | swapping (kind : Kind)
  | sending (kind : Kind) (rest : List Metric)
  | sleeping
  | returned

def Kind.next : Kind → Background
  | .sets => .swapping .timers
  | .timers => .swapping .gauges
  | .gauges => .swapping .counters
  | .counters => .sleeping

/-- What has been swapped out and not sent yet. -/
def Background.unsent : Background → List Metric
  | .sending _ rest => rest
  | _ => []

structure Aggregation where
  aggregator : Aggregator
  background : Background

inductive Activity where
  | record (metric : Metric)
  | test
  | epochs
  | swap (kind : Kind)
  | send (metric : Metric)
  | flushed (kind : Kind)
  | wake
  | stop

/-- One step of some thread. Recording is one step of whichever thread does it, the
epoch callbacks included; every other step but `stop`, which the destructor takes,
is of the background thread. -/
inductive Step : Aggregation → Activity → Aggregation → Prop
  | record {s : Aggregation} {metric : Metric} :
      Step s (.record metric) { s with aggregator := s.aggregator.record metric }
  | test {a : Aggregator} : Step ⟨a, .loop⟩ .test
      ⟨a, if a.backgroundRunning then .epochs else .returned⟩
  | epochs {a : Aggregator} : Step ⟨a, .epochs⟩ .epochs ⟨a, .swapping .sets⟩
  | swap {a : Aggregator} {kind : Kind} : Step ⟨a, .swapping kind⟩ (.swap kind)
      ⟨(a.swap kind).2, .sending kind (a.swap kind).1⟩
  | send {a : Aggregator} {kind : Kind} {metric : Metric} {rest : List Metric} :
      Step ⟨a, .sending kind (metric :: rest)⟩ (.send metric) ⟨a, .sending kind rest⟩
  | flushed {a : Aggregator} {kind : Kind} :
      Step ⟨a, .sending kind []⟩ (.flushed kind) ⟨a, kind.next⟩
  | wake {a : Aggregator} : Step ⟨a, .sleeping⟩ .wake ⟨a, .loop⟩
  | stop {s : Aggregation} :
      Step s .stop { s with aggregator := { s.aggregator with backgroundRunning := false } }

/-- The constructor has started the background thread. -/
def Aggregation.initial : Aggregation := ⟨.construct, .loop⟩

/-! ## What a counter adds up to -/

section Totals

variable (name : Bytes)

/-- What a metric adds to the counter. -/
def Metric.amount : Metric → Int
  | .counter name' value => if name' = name then value else 0
  | _ => 0

def total : List Metric → Int
  | [] => 0
  | metric :: metrics => metric.amount name + total metrics

theorem total_append (ms ms' : List Metric) :
    total name (ms ++ ms') = total name ms + total name ms' := by
  induction ms with
  | nil => exact (Int.zero_add _).symm
  | cons metric ms ih =>
    show metric.amount name + total name (ms ++ ms') = metric.amount name + total name ms + _
    omega

/-- The value of the counter in the map, none counting as zero. -/
def Aggregator.count (a : Aggregator) : Int := a.counters.getD name 0

/-- A map that has no such counter adds nothing. -/
theorem total_absent {counts : List (Bytes × Int)} (h : ∀ value, (name, value) ∉ counts) :
    total name (counts.map fun count => .counter count.1 count.2) = 0 := by
  induction counts with
  | nil => rfl
  | cons count counts ih =>
    have hne : count.1 ≠ name := by
      rintro rfl
      exact h count.2 List.mem_cons_self
    have hrest := ih fun value hmem => h value (List.mem_cons_of_mem _ hmem)
    show (if count.1 = name then count.2 else 0) + total name _ = 0
    rw [if_neg hne, hrest]
    rfl

/-- A map that has the counter adds its value, once. -/
theorem total_present {counts : List (Bytes × Int)} {value : Int}
    (hd : counts.Pairwise fun a b => ¬ compare a.1 b.1 = .eq) (h : (name, value) ∈ counts) :
    total name (counts.map fun count => .counter count.1 count.2) = value := by
  induction counts with
  | nil => cases h
  | cons count counts ih =>
    obtain ⟨hhead, htail⟩ := List.pairwise_cons.mp hd
    show (if count.1 = name then count.2 else 0) + total name _ = value
    rcases List.mem_cons.mp h with rfl | hmem
    · have habsent : ∀ value', (name, value') ∉ counts := by
        intro value' hmem
        exact hhead _ hmem Std.ReflCmp.compare_self
      rw [if_pos rfl, total_absent name habsent, Int.add_zero]
    · have hne : count.1 ≠ name := by
        intro he
        exact hhead _ hmem (he ▸ Std.ReflCmp.compare_self)
      rw [if_neg hne, ih htail hmem, Int.zero_add]

/-- What is swapped out adds up to what was in the map. -/
theorem total_toList (counters : Std.TreeMap Bytes Int) :
    total name (counters.toList.map fun count => .counter count.1 count.2) =
      counters.getD name 0 := by
  rw [Std.TreeMap.getD_eq_getD_getElem?]
  cases hv : counters[name]? with
  | none =>
    apply total_absent
    intro value hmem
    rw [Std.TreeMap.mem_toList_iff_getElem?_eq_some.mp hmem] at hv
    cases hv
  | some value =>
    exact total_present name Std.TreeMap.distinct_keys_toList
      (Std.TreeMap.mem_toList_iff_getElem?_eq_some.mpr hv)

/-! ## Conservation -/

/-- What a step records, and what it hands to the client. -/
def Activity.recorded : Activity → List Metric
  | .record metric => [metric]
  | _ => []

def Activity.handed : Activity → List Metric
  | .send metric => [metric]
  | _ => []

/-- What is in the two places an increment waits in. -/
def Aggregation.pending (s : Aggregation) : Int :=
  total name s.background.unsent + s.aggregator.count name

theorem count_record (a : Aggregator) (metric : Metric) :
    (a.record metric).count name = a.count name + metric.amount name := by
  cases metric with
  | counter name' value =>
    by_cases hn : name' = name
    · subst hn
      have hamount : (Metric.counter name' value).amount name' = value := if_pos rfl
      rw [hamount]
      show (a.counter name' value).counters.getD name' 0 = a.counters.getD name' 0 + value
      rw [Std.TreeMap.getD_eq_getD_getElem? (t := a.counters)]
      unfold Aggregator.counter
      cases a.counters[name']? with
      | none => simp
      | some count => simp
    · have hamount : (Metric.counter name' value).amount name = 0 := if_neg hn
      rw [hamount, Int.add_zero]
      show (a.counter name' value).counters.getD name 0 = a.counters.getD name 0
      unfold Aggregator.counter
      cases a.counters[name']? with
      | none => simp [Std.TreeMap.getD_insert, hn]
      | some count => simp [Std.TreeMap.getD_insert, hn]
  | timer _ _ | gauge _ _ | set _ _ => exact (Int.add_zero _).symm

theorem total_eq_zero {metrics : List Metric} (h : ∀ metric ∈ metrics, metric.amount name = 0) :
    total name metrics = 0 := by
  induction metrics with
  | nil => rfl
  | cons metric metrics ih =>
    obtain ⟨hhead, htail⟩ := List.forall_mem_cons.mp h
    show metric.amount name + total name metrics = 0
    rw [hhead, ih htail]
    rfl

/-- Swapping moves what a counter adds up to from one place to the other. -/
theorem total_swap (a : Aggregator) (kind : Kind) :
    total name (a.swap kind).1 + (a.swap kind).2.count name = a.count name := by
  have other {metrics : List Metric} (h : ∀ metric ∈ metrics, metric.amount name = 0) :
      total name metrics + a.count name = a.count name := by
    rw [total_eq_zero name h, Int.zero_add]
  cases kind with
  | sets | timers | gauges =>
    apply other
    intro metric hmetric
    obtain ⟨_, _, rfl⟩ := List.mem_map.mp hmetric
    rfl
  | counters =>
    show total name (a.counters.toList.map _) + (∅ : Std.TreeMap Bytes Int).getD name 0 = _
    rw [total_toList, Std.TreeMap.getD_emptyc, Int.add_zero]
    rfl

theorem unsent_next (kind : Kind) : kind.next.unsent = [] := by
  cases kind <;> rfl

/-- No step loses an increment or counts it twice. -/
theorem step_conserves {s s' : Aggregation} {l : Activity} (hs : Step s l s') :
    s.pending name + total name l.recorded = total name l.handed + s'.pending name := by
  cases hs with
  | @record _ metric =>
    have hcount := count_record name s.aggregator metric
    show total name s.background.unsent + s.aggregator.count name + (metric.amount name + 0) =
      0 + (total name s.background.unsent + (s.aggregator.record metric).count name)
    omega
  | @test a =>
    have hunsent : (if a.backgroundRunning then Background.epochs else .returned).unsent = [] := by
      split <;> rfl
    show 0 + a.count name + 0 = 0 + (total name (ite _ _ _ : Background).unsent + a.count name)
    rw [hunsent]
    show 0 + a.count name + 0 = 0 + (0 + a.count name)
    omega
  | @swap a kind =>
    have hswap := total_swap name a kind
    show 0 + a.count name + 0 = 0 + (total name (a.swap kind).1 + (a.swap kind).2.count name)
    omega
  | @send a kind metric rest =>
    show metric.amount name + total name rest + a.count name + 0 =
      metric.amount name + 0 + (total name rest + a.count name)
    omega
  | @flushed a kind =>
    show 0 + a.count name + 0 = 0 + (total name kind.next.unsent + a.count name)
    rw [unsent_next]
    show 0 + a.count name + 0 = 0 + (0 + a.count name)
    omega
  | epochs | wake =>
    rename_i a
    show 0 + a.count name + 0 = 0 + (0 + a.count name)
    omega
  | stop =>
    show total name s.background.unsent + s.aggregator.count name + 0 =
      0 + (total name s.background.unsent + s.aggregator.count name)
    omega

end Totals

/-! ## Runs -/

/-- Everything recorded in a run, and everything handed to the client. -/
def recorded (ts : List (Transition Aggregation Activity)) : List Metric :=
  ts.flatMap fun t => t.label.recorded

def handed (ts : List (Transition Aggregation Activity)) : List Metric :=
  ts.flatMap fun t => t.label.handed

/-- **Counter increments are conserved**: what has been recorded under a name has been
handed to the client, is in the map that was swapped out, or is in `_counters`. -/
theorem counter_conserved {ts : List (Transition Aggregation Activity)} {s : Aggregation}
    (h : Run Step .initial ts s) (name : Bytes) :
    total name (recorded ts) =
      total name (handed ts) + total name s.background.unsent + s.aggregator.count name := by
  suffices hpending : total name (recorded ts) = total name (handed ts) + s.pending name by
    unfold Aggregation.pending at hpending
    omega
  refine h.history (fun _ => True)
    (fun ts s => total name (recorded ts) = total name (handed ts) + s.pending name) ?_ ?_
    fun _ _ => trivial
  · rfl
  · intro ts s l s' _ ih hs _
    have hstep := step_conserves name hs
    have hrecorded : total name (recorded (ts ++ [⟨s, l, s'⟩])) =
        total name (recorded ts) + total name l.recorded := by
      rw [recorded, List.flatMap_append, total_append]
      simp [recorded]
    have hhanded : total name (handed (ts ++ [⟨s, l, s'⟩])) =
        total name (handed ts) + total name l.handed := by
      rw [handed, List.flatMap_append, total_append]
      simp [handed]
    omega

/-- Two counters: the first has been sent, the second is recorded again before it is. -/
theorem counter_conserved_draining :
    ∃ ts s, Run Step .initial ts s ∧ handed ts = [.counter [97] 1] ∧
      s.background.unsent = [.counter [98] 5] ∧ s.aggregator.count [98] = 3 ∧
      total [98] (recorded ts) =
        total [98] (handed ts) + total [98] s.background.unsent + s.aggregator.count [98] := by
  have h₁ := Run.start.snoc (.record : Step .initial (.record (.counter [97] 1)) _)
  have h₂ := h₁.snoc (.record : Step _ (.record (.counter [98] 2)) _)
  have h₃ := h₂.snoc (.record : Step _ (.record (.counter [98] 3)) _)
  have h₄ := ((h₃.snoc .test).snoc .epochs).snoc .swap
  have h₅ := (((h₄.snoc .flushed).snoc .swap).snoc .flushed).snoc .swap
  have h₆ := ((h₅.snoc .flushed).snoc .swap).snoc .send
  have h₇ := h₆.snoc (.record : Step _ (.record (.counter [98] 3)) _)
  exact ⟨_, _, h₇, by decide, by decide, by decide, counter_conserved h₇ [98]⟩

end Quitsies.Stats
