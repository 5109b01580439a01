import Quitsies.Stats.Server

/-!
# What the loop hands over, period by period

The swaps of a map cut what is recorded into periods. Whatever is recorded while the
loop swaps and sends, of each period that has been sent the server hears one metric for
a name: the sum of a counter, the last value of everything else. So it knows what it
would know had it been sent, directly, an earlier part of the calls.
-/

namespace Quitsies.Stats

open Text Interaction

/-! ## Periods -/

/-- What is recorded between the swaps of one map. -/
structure Periods where
  ended : List (List Metric)
  current : List Metric

def Periods.extend (kind : Kind) (p : Periods) : Activity → Periods
  | .record metric => { p with current := p.current ++ [metric] }
  | .swap kind' => if kind' = kind then ⟨p.ended ++ [p.current], []⟩ else p
  | _ => p

def periods (kind : Kind) (ts : List (Transition Aggregation Activity)) : Periods :=
  ts.foldl (fun p t => p.extend kind t.label) ⟨[], []⟩

/-- What one period comes to for a name. -/
def Kind.kept (kind : Kind) (name : Bytes) (metrics : List Metric) : List Int :=
  (kind.merged (values kind name metrics)).toList

/-- The periods make up all that is recorded. Those that have ended have been handed to
the client, but for at most the last, which is being sent; the map has the current one. -/
structure ByPeriod (kind : Kind) (name : Bytes) (ts : List (Transition Aggregation Activity))
    (s : Aggregation) (sent waiting : List (List Metric)) : Prop where
  recorded : recorded ts = (periods kind ts).ended.flatten ++ (periods kind ts).current
  ended : (periods kind ts).ended = sent ++ waiting
  one : waiting.length ≤ 1
  handed : values kind name (handed ts) = sent.flatMap (kind.kept name)
  unsent : values kind name s.background.unsent = waiting.flatMap (kind.kept name)
  held : s.aggregator.lookup kind name = kind.merged (values kind name (periods kind ts).current)

section Concat

variable (ts : List (Transition Aggregation Activity)) (t : Transition Aggregation Activity)

theorem periods_concat (kind : Kind) :
    periods kind (ts ++ [t]) = (periods kind ts).extend kind t.label := by
  rw [periods, List.foldl_concat, periods]

theorem recorded_concat : recorded (ts ++ [t]) = recorded ts ++ t.label.recorded := by
  simp [recorded]

theorem handed_concat : handed (ts ++ [t]) = handed ts ++ t.label.handed := by
  simp [handed]

end Concat

theorem values_append (kind : Kind) (name : Bytes) (ms ms' : List Metric) :
    values kind name (ms ++ ms') = values kind name ms ++ values kind name ms' :=
  List.filterMap_append

theorem lookup_construct (kind : Kind) (name : Bytes) :
    Aggregator.construct.lookup kind name = none := by
  cases kind <;> simp [Aggregator.construct, Aggregator.lookup]

theorem lookup_swap_own (a : Aggregator) (kind : Kind) (name : Bytes) :
    (a.swap kind).2.lookup kind name = none := by
  cases kind <;> simp [Aggregator.swap, Aggregator.lookup]

theorem merged_eq_none (kind : Kind) (values : List Int) :
    kind.merged values = none ↔ values = [] := by
  cases kind <;> simp [Kind.merged]

theorem kept_length (kind : Kind) (name : Bytes) (metrics : List Metric) :
    (kind.kept name metrics).length ≤ 1 := by
  unfold Kind.kept
  cases kind.merged (values kind name metrics) <;> simp

namespace ByPeriod

variable {kind : Kind} {name : Bytes} {ts : List (Transition Aggregation Activity)}
  {s : Aggregation} {sent waiting : List (List Metric)}

theorem initial (kind : Kind) (name : Bytes) : ByPeriod kind name [] .initial [] [] where
  recorded := rfl
  ended := rfl
  one := Nat.zero_le 1
  handed := rfl
  unsent := rfl
  held := (lookup_construct kind name).trans ((merged_eq_none kind _).mpr rfl).symm

/-- Where nothing of the name is being sent, every period that has ended is sent. -/
theorem all_sent (h : ByPeriod kind name ts s sent waiting)
    (hnone : values kind name s.background.unsent = []) :
    ByPeriod kind name ts s (sent ++ waiting) [] where
  recorded := h.recorded
  ended := h.ended.trans (List.append_nil _).symm
  one := Nat.zero_le 1
  handed := by rw [h.handed, List.flatMap_append, ← h.unsent, hnone, List.append_nil]
  unsent := hnone
  held := h.held

/-- A step that neither records nor swaps nor sends. -/
theorem frame (h : ByPeriod kind name ts s sent waiting) {l : Activity} {s' : Aggregation}
    (hperiods : ∀ p : Periods, p.extend kind l = p) (hrecorded : l.recorded = [])
    (hhanded : values kind name l.handed = [])
    (hunsent : values kind name s'.background.unsent = values kind name s.background.unsent)
    (hheld : s'.aggregator.lookup kind name = s.aggregator.lookup kind name) :
    ByPeriod kind name (ts ++ [⟨s, l, s'⟩]) s' sent waiting where
  recorded := by
    rw [recorded_concat, periods_concat, hperiods, hrecorded, List.append_nil, h.recorded]
  ended := by rw [periods_concat, hperiods, h.ended]
  one := h.one
  handed := by rw [handed_concat, values_append, hhanded, List.append_nil, h.handed]
  unsent := by rw [hunsent, h.unsent]
  held := by rw [periods_concat, hperiods, hheld, h.held]

theorem record (h : ByPeriod kind name ts s sent waiting) (metric : Metric) :
    ByPeriod kind name
      (ts ++ [⟨s, .record metric, { s with aggregator := s.aggregator.record metric }⟩])
      { s with aggregator := s.aggregator.record metric } sent waiting where
  recorded := by
    rw [recorded_concat, periods_concat, h.recorded, List.append_assoc]
    rfl
  ended := by rw [periods_concat]; exact h.ended
  one := h.one
  handed := by rw [handed_concat, values_append, h.handed]; exact List.append_nil _
  unsent := h.unsent
  held := by
    have hvalues := values_concat kind name (periods kind ts).current metric
    rw [periods_concat]
    show (s.aggregator.record metric).lookup kind name =
      kind.merged (values kind name ((periods kind ts).current ++ [metric]))
    rw [lookup_record, hvalues, h.held]
    split
    · rw [merged_concat]
    · rfl

/-- The swap of the map ends the period, and what it comes to waits to be sent. -/
theorem swap_own {a : Aggregator}
    (h : ByPeriod kind name ts ⟨a, .swapping kind⟩ sent []) :
    ByPeriod kind name
      (ts ++ [⟨⟨a, .swapping kind⟩, .swap kind, ⟨(a.swap kind).2, .sending kind (a.swap kind).1⟩⟩])
      ⟨(a.swap kind).2, .sending kind (a.swap kind).1⟩ sent [(periods kind ts).current] := by
  have hextend : (periods kind ts).extend kind (.swap kind) =
      ⟨(periods kind ts).ended ++ [(periods kind ts).current], []⟩ := if_pos rfl
  have hended : (periods kind ts).ended = sent := h.ended.trans (List.append_nil _)
  constructor
  case recorded =>
    rw [recorded_concat, periods_concat, hextend, h.recorded]
    simp [Activity.recorded]
  case ended => rw [periods_concat, hextend, hended]
  case one => exact Nat.le_refl 1
  case handed =>
    rw [handed_concat, values_append, h.handed]
    exact List.append_nil _
  case unsent =>
    show values kind name (a.swap kind).1 = _
    rw [values_swap, List.flatMap_singleton, Kind.kept, ← h.held]
  case held =>
    rw [periods_concat, hextend]
    exact (lookup_swap_own a kind name).trans ((merged_eq_none kind _).mpr rfl).symm

theorem swap_other {a : Aggregator} {kind' : Kind} (hk : kind' ≠ kind)
    (h : ByPeriod kind name ts ⟨a, .swapping kind'⟩ sent []) :
    ByPeriod kind name
      (ts ++ [⟨⟨a, .swapping kind'⟩, .swap kind',
        ⟨(a.swap kind').2, .sending kind' (a.swap kind').1⟩⟩])
      ⟨(a.swap kind').2, .sending kind' (a.swap kind').1⟩ sent [] :=
  h.frame (fun _ => if_neg hk) rfl rfl (values_swap_other a hk name) (lookup_swap_other a hk name)

theorem send {a : Aggregator} {kind' : Kind} {metric : Metric} {rest : List Metric}
    (h : ByPeriod kind name ts ⟨a, .sending kind' (metric :: rest)⟩ sent waiting) :
    ∃ sent' waiting', ByPeriod kind name
      (ts ++ [⟨⟨a, .sending kind' (metric :: rest)⟩, .send metric, ⟨a, .sending kind' rest⟩⟩])
      ⟨a, .sending kind' rest⟩ sent' waiting' := by
  have hcons : values kind name (metric :: rest) =
      values kind name [metric] ++ values kind name rest := values_append kind name [metric] rest
  cases hmetric : values kind name [metric] with
  | nil =>
    refine ⟨sent, waiting, h.frame (fun _ => rfl) rfl hmetric ?_ rfl⟩
    show values kind name rest = values kind name (metric :: rest)
    rw [hcons, hmetric, List.nil_append]
  | cons value more =>
    -- All that waits under the name is this metric.
    have hunsent : value :: (more ++ values kind name rest) =
        waiting.flatMap (kind.kept name) := by
      rw [← h.unsent]
      show _ = values kind name (metric :: rest)
      rw [hcons, hmetric, List.cons_append]
    obtain ⟨period, rfl⟩ : ∃ period, waiting = [period] := by
      cases waiting with
      | nil => cases hunsent
      | cons period periods =>
        have hone := h.one
        rw [List.length_cons] at hone
        exact ⟨period, by rw [List.length_eq_zero_iff.mp (by omega : periods.length = 0)]⟩
    rw [List.flatMap_singleton] at hunsent
    have hlength := kept_length kind name period
    rw [← hunsent, List.length_cons, List.length_append] at hlength
    have hmore : more = [] := List.length_eq_zero_iff.mp (by omega)
    have hrest : values kind name rest = [] := List.length_eq_zero_iff.mp (by omega)
    refine ⟨sent ++ [period], [], ?_⟩
    constructor
    case recorded =>
      rw [recorded_concat, periods_concat, h.recorded]
      exact List.append_nil _
    case ended =>
      rw [periods_concat, List.append_nil]
      exact h.ended
    case one => exact Nat.zero_le 1
    case handed =>
      rw [handed_concat, values_append, h.handed, List.flatMap_append, List.flatMap_singleton,
        ← hunsent, hmore, hrest]
      exact congrArg _ (hmetric.trans (by rw [hmore]; rfl))
    case unsent => exact hrest
    case held => rw [periods_concat]; exact h.held

/-- Every step keeps to the periods. -/
theorem step (h : ByPeriod kind name ts s sent waiting) {l : Activity} {s' : Aggregation}
    (hs : Step s l s') :
    ∃ sent' waiting', ByPeriod kind name (ts ++ [⟨s, l, s'⟩]) s' sent' waiting' := by
  cases hs with
  | @record _ metric => exact ⟨_, _, h.record metric⟩
  | @test a =>
    have hunsent : (if a.backgroundRunning then Background.epochs else .returned).unsent = [] := by
      split <;> rfl
    exact ⟨_, _, h.frame (fun _ => rfl) rfl rfl (congrArg _ hunsent) rfl⟩
  | epochs => exact ⟨_, _, h.frame (fun _ => rfl) rfl rfl rfl rfl⟩
  | @swap a kind' =>
    by_cases hk : kind' = kind
    · subst hk
      exact ⟨_, _, (h.all_sent rfl).swap_own⟩
    · exact ⟨_, _, (h.all_sent rfl).swap_other hk⟩
  | send => exact h.send
  | @flushed a kind' =>
    exact ⟨_, _, h.frame (fun _ => rfl) rfl rfl (congrArg _ (unsent_next kind')) rfl⟩
  | wake => exact ⟨_, _, h.frame (fun _ => rfl) rfl rfl rfl rfl⟩
  | stop => exact ⟨_, _, h.frame (fun _ => rfl) rfl rfl rfl (by cases kind <;> rfl)⟩

theorem run (h : Run Step .initial ts s) (kind : Kind) (name : Bytes) :
    ∃ sent waiting, ByPeriod kind name ts s sent waiting := by
  refine h.history (fun _ => True)
    (fun ts s => ∃ sent waiting, ByPeriod kind name ts s sent waiting)
    ⟨[], [], initial kind name⟩ ?_ fun _ _ => trivial
  rintro ts s l s' - ⟨sent, waiting, hts⟩ hs -
  exact hts.step hs

end ByPeriod

/-! ## Sums that a counter can hold -/

/-- The values of an `intmax_t`. -/
def IsIntmax (value : Int) : Prop := -2 ^ 63 ≤ value ∧ value < 2 ^ 63

instance : DecidablePred IsIntmax := fun _ => inferInstanceAs (Decidable (_ ∧ _))

/-- Every sum that the counter of a name goes through in a period is an `intmax_t`. -/
def SumsFit (name : Bytes) (period : List Metric) : Prop :=
  ∀ vs ∈ (values .counters name period).inits, IsIntmax vs.sum

instance (name : Bytes) : DecidablePred (SumsFit name) := fun period =>
  inferInstanceAs (Decidable (∀ vs ∈ (values .counters name period).inits, IsIntmax vs.sum))

/-- The periods that have ended, and the current one. -/
def Periods.all (p : Periods) : List (List Metric) := p.ended ++ [p.current]

/-- A step ends a period, goes on with it or leaves it alone. -/
theorem Periods.extend_all (kind : Kind) (p : Periods) (l : Activity) {period : List Metric}
    (h : period ∈ p.all) : ∃ period' ∈ (p.extend kind l).all, period <+: period' := by
  cases l with
  | record metric =>
    rcases List.mem_append.mp h with hended | hcurrent
    · exact ⟨period, List.mem_append_left _ hended, List.prefix_rfl⟩
    · obtain rfl := List.mem_singleton.mp hcurrent
      exact ⟨p.current ++ [metric], List.mem_append_right _ (List.mem_singleton_self _),
        List.prefix_append _ _⟩
  | swap kind' =>
    by_cases hk : kind' = kind
    · have hextend : p.extend kind (.swap kind') = ⟨p.ended ++ [p.current], []⟩ := if_pos hk
      rw [hextend]
      exact ⟨period, List.mem_append_left _ h, List.prefix_rfl⟩
    · have hextend : p.extend kind (.swap kind') = p := if_neg hk
      rw [hextend]
      exact ⟨period, h, List.prefix_rfl⟩
  | _ => exact ⟨period, h, List.prefix_rfl⟩

/-- What is recorded of a period is the beginning of one that a longer run has. -/
theorem current_prefix (kind : Kind) (ts ts' : List (Transition Aggregation Activity)) :
    ∃ period ∈ (periods kind (ts ++ ts')).all, (periods kind ts).current <+: period := by
  induction ts' using List.reverseRecOn with
  | nil =>
    rw [List.append_nil]
    exact ⟨_, List.mem_append_right _ (List.mem_singleton_self _), List.prefix_rfl⟩
  | append_singleton ts' t ih =>
    obtain ⟨period, hperiod, hinit⟩ := ih
    rw [← List.append_assoc, periods_concat]
    obtain ⟨period', hperiod', hextends⟩ := Periods.extend_all kind _ t.label hperiod
    exact ⟨period', hperiod', hinit.trans hextends⟩

/-- Where the sums of its periods fit, a counter never holds anything that does not. -/
theorem counter_fits {ts : List (Transition Aggregation Activity)} {s : Aggregation}
    (h : Run Step .initial ts s) {name : Bytes}
    (hsums : ∀ period ∈ (periods .counters ts).all, SumsFit name period)
    {t : Transition Aggregation Activity} (ht : t ∈ ts) {value : Int}
    (hvalue : t.after.aggregator.lookup .counters name = some value) : IsIntmax value := by
  obtain ⟨ts₁, ts₂, rfl⟩ := List.append_of_mem ht
  obtain ⟨-, -, hrun⟩ := h.split
  obtain ⟨sent, waiting, hby⟩ := ByPeriod.run hrun .counters name
  rw [List.append_cons] at hsums
  obtain ⟨period, hperiod, hinit⟩ := current_prefix .counters (ts₁ ++ [t]) ts₂
  rw [hby.held] at hvalue
  obtain rfl : (values .counters name (periods .counters (ts₁ ++ [t])).current).sum = value := by
    by_cases hnil : values .counters name (periods .counters (ts₁ ++ [t])).current = []
    · rw [(merged_eq_none .counters _).mpr hnil] at hvalue
      cases hvalue
    · rw [Kind.merged, if_neg hnil] at hvalue
      exact Option.some.inj hvalue
  exact hsums period hperiod _ (List.mem_inits _ _ |>.mpr (hinit.filterMap _))

/-- **Every period is handed over as one metric for a name**, whatever is recorded while
the loop swaps and sends: nothing is handed twice, nothing out of order, and what is
recorded behind a swap is not in what it swapped out. The counter of the name holds what
an `intmax_t` can hold, as long as the sums of its periods fit one. -/
theorem handed_by_period {ts : List (Transition Aggregation Activity)} {s : Aggregation}
    (h : Run Step .initial ts s) (kind : Kind) (name : Bytes)
    (hsums : ∀ period ∈ (periods .counters ts).all, SumsFit name period) :
    recorded ts = (periods kind ts).ended.flatten ++ (periods kind ts).current ∧
      values kind name (handed ts) ++ values kind name s.background.unsent =
        (periods kind ts).ended.flatMap (kind.kept name) ∧
      s.aggregator.lookup kind name =
        kind.merged (values kind name (periods kind ts).current) ∧
      ∀ t ∈ ts, ∀ value, t.after.aggregator.lookup .counters name = some value →
        IsIntmax value := by
  obtain ⟨sent, waiting, hby⟩ := ByPeriod.run h kind name
  refine ⟨hby.recorded, ?_, hby.held, fun t ht value hvalue => counter_fits h hsums ht hvalue⟩
  rw [hby.handed, hby.unsent, hby.ended, List.flatMap_append]

/-- A counter is recorded twice, and again while the sum is being sent. -/
theorem handed_by_period_overtaken :
    ∃ ts s, Run Step .initial ts s ∧ handed ts = [.counter [97] 5] ∧
      s.aggregator.lookup .counters [97] = some (2 ^ 63 - 1) ∧
      recorded ts = (periods .counters ts).ended.flatten ++ (periods .counters ts).current ∧
      values .counters [97] (handed ts) ++ values .counters [97] s.background.unsent =
        (periods .counters ts).ended.flatMap (Kind.counters.kept [97]) ∧
      s.aggregator.lookup .counters [97] =
        Kind.counters.merged (values .counters [97] (periods .counters ts).current) ∧
      ∀ t ∈ ts, ∀ value, t.after.aggregator.lookup .counters [97] = some value →
        IsIntmax value := by
  have h₁ := Run.start.snoc (.record : Step .initial (.record (.counter [97] 2)) _)
  have h₂ := h₁.snoc (.record : Step _ (.record (.counter [97] 3)) _)
  have h₃ := ((h₂.snoc .test).snoc .epochs).snoc .swap
  have h₄ := ((h₃.snoc .flushed).snoc .swap).snoc .flushed
  have h₅ := ((h₄.snoc .swap).snoc .flushed).snoc .swap
  have h₆ := h₅.snoc (.record : Step _ (.record (.counter [97] (2 ^ 63 - 1))) _)
  have h₇ := h₆.snoc .send
  exact ⟨_, _, h₇, by decide, by decide, handed_by_period h₇ .counters [97] (by decide)⟩

section Kept

variable (kind : Kind) (name : Bytes)

end Kept

end Quitsies.Stats
