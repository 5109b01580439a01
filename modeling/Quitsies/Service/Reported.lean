import Quitsies.Service.Counted
import Quitsies.Stats.Periods

/-!
# What the counters say

The counts of the operations as a statsd server has them. The client prints a counter
through `%d`, so the server has the number of operations modulo 2^32; and because a
count of operations is never negative, it has the number itself while that is an `int`.
-/

namespace Quitsies.Service

open Text Interaction Db Stats

/-! ## Counts are not negative -/

/-- Nothing in the list lowers the counter. -/
def Rising (name : Bytes) (metrics : List Metric) : Prop :=
  ∀ metric ∈ metrics, 0 ≤ metric.amount name

section Rising

variable {name : Bytes}

theorem rising_append {metrics metrics' : List Metric} :
    Rising name (metrics ++ metrics') ↔ Rising name metrics ∧ Rising name metrics' :=
  List.forall_mem_append

theorem amount_eq (name : Bytes) (metric : Metric) :
    metric.amount name = (metric.valueOf .counters name).getD 0 := by
  cases metric with
  | counter name' value =>
    by_cases hn : name' = name
    · simp [Metric.amount, Metric.valueOf, Metric.kind, Metric.name, Metric.value, hn]
    · simp [Metric.amount, Metric.valueOf, Metric.kind, Metric.name, hn]
  | timer _ _ | gauge _ _ | set _ _ => simp [Metric.amount, Metric.valueOf, Metric.kind]

/-- What a counter adds up to is the sum of the values it is given. -/
theorem total_eq_sum (name : Bytes) (metrics : List Metric) :
    total name metrics = (values .counters name metrics).sum := by
  induction metrics with
  | nil => rfl
  | cons metric metrics ih =>
    show metric.amount name + total name metrics = _
    rw [ih, amount_eq]
    cases hv : metric.valueOf .counters name with
    | none =>
      rw [values, values, List.filterMap_cons_none hv]
      exact Int.zero_add _
    | some value =>
      rw [values, values, List.filterMap_cons_some hv, List.sum_cons]
      rfl

theorem Rising.values {metrics : List Metric} (h : Rising name metrics) :
    ∀ value ∈ values .counters name metrics, 0 ≤ value := by
  intro value hvalue
  obtain ⟨metric, hmem, hv⟩ := List.mem_filterMap.mp hvalue
  have hamount := h metric hmem
  rw [amount_eq, hv] at hamount
  exact hamount

theorem Rising.total {metrics : List Metric} (h : Rising name metrics) :
    0 ≤ total name metrics := by
  rw [total_eq_sum]
  exact List.sum_nonneg h.values

/-- A counter that is not negative does not lower itself when it is swapped out. -/
theorem rising_swap {a : Aggregator} (kind : Kind) (h : 0 ≤ a.count name) :
    Rising name (a.swap kind).1 := by
  intro metric hmetric
  cases kind with
  | sets | timers | gauges =>
    obtain ⟨_, _, rfl⟩ := List.mem_map.mp hmetric
    exact Int.le_refl 0
  | counters =>
    obtain ⟨count, hcount, rfl⟩ := List.mem_map.mp hmetric
    show 0 ≤ if count.1 = name then count.2 else 0
    split
    · next hn =>
      have hvalue : a.counters[name]? = some count.2 := by
        rw [← hn]
        exact Std.TreeMap.mem_toList_iff_getElem?_eq_some.mp hcount
      unfold Aggregator.count at h
      rw [Std.TreeMap.getD_eq_getD_getElem?, hvalue] at h
      exact h
    · exact Int.le_refl 0

/-- Neither in the map nor among what is swapped out is there anything negative. -/
structure Upward (name : Bytes) (s : Aggregation) : Prop where
  unsent : Rising name s.background.unsent
  count : 0 ≤ s.aggregator.count name

theorem Upward.step {s s' : Aggregation} {l : Activity} (h : Upward name s)
    (hs : Stats.Step s l s') (hl : Rising name l.recorded) :
    Rising name l.handed ∧ Upward name s' := by
  have hnil : Rising name [] := fun metric hmem => by cases hmem
  cases hs with
  | @record _ metric =>
    refine ⟨hnil, h.unsent, ?_⟩
    have hamount := hl metric (List.mem_singleton_self _)
    have hcount := h.count
    show 0 ≤ (s.aggregator.record metric).count name
    rw [count_record]
    omega
  | @test a =>
    refine ⟨hnil, ?_, h.count⟩
    show Rising name (ite _ _ _ : Background).unsent
    split <;> exact hnil
  | epochs | wake => exact ⟨hnil, hnil, h.count⟩
  | @swap a kind =>
    refine ⟨hnil, rising_swap kind h.count, ?_⟩
    have hcount : 0 ≤ a.count name := h.count
    cases kind with
    | sets | timers | gauges => exact hcount
    | counters =>
      show 0 ≤ (∅ : Std.TreeMap Bytes Int).getD name 0
      rw [Std.TreeMap.getD_emptyc]
  | @send a kind metric rest =>
    obtain ⟨hmetric, hrest⟩ := List.forall_mem_cons.mp h.unsent
    exact ⟨fun metric' hmem => List.mem_singleton.mp hmem ▸ hmetric, hrest, h.count⟩
  | @flushed a kind =>
    refine ⟨hnil, ?_, h.count⟩
    show Rising name kind.next.unsent
    rw [unsent_next]
    exact hnil
  | stop => exact ⟨hnil, h.unsent, h.count⟩

end Rising

/-! ## Over a run -/

section Runs

variable {ι : Type} [DecidableEq ι] {s s' : Counters ι}
  {ts : List (Transition (Counters ι) (CountersAction ι ⊕ Activity))} {name : Bytes}

theorem upward_monitored {l : CountersAction ι ⊕ Activity} (hname : name ∈ outcomes)
    (h : Upward name s.world) (hs : Monitored s l s') :
    Rising name (reportedBy l) ∧ Upward name s'.world := by
  have hnil : Rising name [] := fun metric hmem => by cases hmem
  cases hs with
  | client hs =>
    refine ⟨hnil, ?_⟩
    cases hs with
    | start _ _ | finish _ => exact h
    | @perform i q past op next r w _ hw =>
      cases op with
      | counter name' =>
        refine (h.step hw fun metric hmem => ?_).2
        obtain rfl := List.mem_singleton.mp hmem
        show 0 ≤ if name' = name then (1 : Int) else 0
        split <;> decide
      | get _ | delete _ | put _ _ | lock | unlock =>
        obtain rfl : w = s.world := hw
        exact h
  | @background l a hs hl =>
    refine h.step hs fun metric hmem => ?_
    cases l with
    | record metric' =>
      obtain rfl := List.mem_singleton.mp hmem
      cases metric with
      | counter name' value =>
        have hne : name' ≠ name := fun hn => hl _ rfl name' value rfl (hn ▸ hname)
        exact (if_neg hne).ge
      | timer _ _ | gauge _ _ | set _ _ => exact Int.le_refl 0
    | _ => cases hmem

theorem upward_run (hname : name ∈ outcomes)
    (h : Run Monitored (Pool.initial .initial) ts s) :
    Rising name (reported ts) ∧ Upward name s.world := by
  refine h.history (fun _ => True)
    (fun ts s => Rising name (reported ts) ∧ Upward name s.world) ?_ ?_ fun _ _ => trivial
  · have hnil : Rising name [] := fun metric hmem => absurd hmem List.not_mem_nil
    exact ⟨hnil, hnil, Int.le_refl 0⟩
  · rintro ts s l s' - ⟨hreported, hupward⟩ hs -
    obtain ⟨hl, hupward'⟩ := upward_monitored hname hupward hs
    refine ⟨?_, hupward'⟩
    rw [reported, List.flatMap_append, ← reported]
    refine rising_append.mpr ⟨hreported, ?_⟩
    rw [List.flatMap_singleton]
    exact hl

/-- What is handed over and small is read as it is. -/
theorem low32_values {metrics : List Metric} (h : Rising name metrics)
    (hsmall : total name metrics < 2 ^ 31) :
    (values .counters name metrics).map low32 = values .counters name metrics := by
  rw [List.map_congr_left (g := id), List.map_id]
  intro value hvalue
  have hnonneg := h.values value hvalue
  have hle := List.single_le_sum h.values value hvalue
  rw [← total_eq_sum] at hle
  exact (low32_eq_iff value).mpr ⟨by omega, by omega⟩

/-- What a server knows of the operations that ended in an outcome, where `told` is its
counter and `missing` the counts on their way to it. -/
structure Reports (before told : Int) (missing : Int) (operations : Nat) : Prop where
  waiting : 0 ≤ missing
  modulo : told + missing ≡ before + operations [ZMOD 2 ^ 32]
  exact : operations < 2 ^ 31 → told + missing = before + operations

/-- **The counters of the server are the operations of the service**: with what is still to
be recorded, in the map or swapped out they are the number of calls of RocksDB that ended
in the outcome, modulo 2^32, and just that number while there are fewer than 2^31. -/
theorem operations_reported [Fintype ι] {client : Statsd} {front : Bytes}
    (h : Run Monitored (Pool.initial .initial) ts s) (hname : name ∈ outcomes)
    (hsends : ∀ metric ∈ reported ts, client.Sends front metric) (server : Server) :
    Reports (server.counters (front ++ name))
      (((reported ts).foldl (Server.deliver client) server).counters (front ++ name))
      (total name s.world.background.unsent + s.world.aggregator.count name +
        s.census (.counter name))
      (operations ts name) := by
  have hconserved := (conserved_run ts h hname).2
  unfold Aggregation.pending at hconserved
  obtain ⟨hrising, hupward⟩ := upward_run hname h
  have hunsent := hupward.unsent.total
  have hcount := hupward.count
  have htold : ((reported ts).foldl (Server.deliver client) server).counters (front ++ name) =
      server.counters (front ++ name) + ((values .counters name (reported ts)).map low32).sum := by
    rw [Server.foldl_deliver hsends]
    show _ + (readings front .counters (front ++ name) (reported ts)).sum = _
    rw [readings_front]
    rfl
  have htotal := total_eq_sum name (reported ts)
  refine ⟨by omega, ?_, fun hsmall => ?_⟩
  · have hoperations : (operations ts name : Int) = (values .counters name (reported ts)).sum +
        (total name s.world.background.unsent + s.world.aggregator.count name +
          s.census (.counter name)) := by omega
    rw [htold, hoperations, add_assoc]
    exact ((sum_low32_modEq _).add_right _).add_left _
  · have hsame := low32_values hrising (by omega)
    rw [htold, hsame, ← htotal]
    omega

end Runs

/-- A step of the background thread. -/
theorem Monitored.turn {ι : Type} [DecidableEq ι] {s : Counters ι} {l : Activity} {a : Aggregation}
    (h : Stats.Step s.world l a) (hl : l.recorded = []) :
    Monitored s (.inr l) { s with world := a } := by
  refine .background h fun metric he => ?_
  rw [he] at hl
  cases hl

/-- Two lookups; the count of the first is sent before the second is counted. -/
theorem two_lookups :
    ∃ (ts : List (Transition (Counters Bool) (CountersAction Bool ⊕ Activity)))
      (s : Counters Bool), Run Monitored (Pool.initial .initial) ts s ∧
      reported ts = [.counter (text "rocksdb.get.success") 1] ∧
      operations ts (text "rocksdb.get.success") = 2 := by
  let s₀ : Counters Bool := Pool.initial .initial
  have h₀ : Run Monitored s₀ [] s₀ := .start
  have h₁ := h₀.snoc (.client (.start (i := true) (q := .httpGet (text "k")) rfl trivial))
  have h₂ := h₁.snoc (.client (.start (i := false) (q := .httpGet (text "k")) rfl trivial))
  have h₃ := h₂.snoc (.found (i := true) (text "v") rfl)
  have h₄ := h₃.snoc (.found (i := false) (text "v") rfl)
  have h₅ := h₄.snoc (.counted (i := true) rfl)
  have h₆ := ((h₅.snoc (.turn .test rfl)).snoc (.turn .epochs rfl)).snoc (.turn .swap rfl)
  have h₇ := ((h₆.snoc (.turn .flushed rfl)).snoc (.turn .swap rfl)).snoc (.turn .flushed rfl)
  have h₈ := ((h₇.snoc (.turn .swap rfl)).snoc (.turn .flushed rfl)).snoc (.turn .swap rfl)
  exact ⟨_, _, h₈.snoc (.turn .send rfl), by decide, by decide⟩

theorem operations_reported_lookups :
    ∃ (ts : List (Transition (Counters Bool) (CountersAction Bool ⊕ Activity)))
      (s : Counters Bool), operations ts (text "rocksdb.get.success") = 2 ∧
        Reports 0 (((reported ts).foldl (Server.deliver (.construct (text "q"))) .initial).counters
            (text "q" ++ text "." ++ text "rocksdb.get.success"))
          (total (text "rocksdb.get.success") s.world.background.unsent +
            s.world.aggregator.count (text "rocksdb.get.success") +
            s.census (.counter (text "rocksdb.get.success")))
          (operations ts (text "rocksdb.get.success")) := by
  obtain ⟨ts, s, h, hreported, hoperations⟩ := two_lookups
  refine ⟨ts, s, hoperations, operations_reported h (by decide) ?_ .initial⟩
  rw [hreported]
  intro metric hmetric
  obtain rfl := List.mem_singleton.mp hmetric
  exact sends_plain (by decide) (by decide) (by decide) (by decide)

end Quitsies.Service
