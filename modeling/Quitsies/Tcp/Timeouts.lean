import Quitsies.Tcp.Asio

/-!
# Timeouts over several requests

The two timers get their expiry in the constructor of the connection and keep it
while `start` and `do_read` wait on them again for every further request. A wait
for a later request is therefore over when the first one's would have been.
-/

namespace Quitsies.Tcp

open Text Interaction Db

variable {r w : Int}

/-- A timer that stops the connection has given the current request, or the
response being sent, its time. -/
structure PerRequest (r w : Int) (t : Transition Hosted Happening) : Prop where
  read : t.label = .readTimer → t.before.began + r ≤ t.before.clock
  write : t.label = .writeTimer → t.before.sending + w ≤ t.before.clock

/-- A timer stops the connection only for what began when the connection did. -/
structure FromConstruction (t : Transition Hosted Happening) : Prop where
  read : t.label = .readTimer → t.before.began = t.before.constructed
  write : t.label = .writeTimer → t.before.sending = t.before.constructed

/-- A wait completes as soon as it can: at once, or when the expiry comes. -/
structure Prompt (t : Transition Hosted Happening) : Prop where
  read : t.label = .readTimer →
    (t.before.clock : Int) = max (t.before.began : Int) t.before.readTimer.expiry
  write : t.label = .writeTimer →
    (t.before.clock : Int) = max (t.before.sending : Int) t.before.writeTimer.expiry

/-- The times of a connection that was constructed with these timeouts. -/
structure Timed (r w : Int) (s : Hosted) : Prop where
  readExpiry : s.readTimer.expiry = s.constructed + r
  writeExpiry : s.writeTimer.expiry = s.constructed + w
  began : s.constructed ≤ s.began
  sending : s.constructed ≤ s.sending

/-- However often the timers are waited on and cancelled, they expire once after
the constructor. -/
theorem timed_run {due : Timer → Nat → Prop} {db : Bool} {command : CommandType} {limit now : Nat}
    {ts : List (Transition Hosted Happening)} {s : Hosted}
    (hrun : Run (Hosted.Step due) (.construct (.construct db command limit r w) now) ts s) :
    Timed r w s := by
  have hframe := Hosted.Frame.run hrun
  have hc : s.constructed = now := hframe.constructed
  have hbegan : s.began = now ∨ now ≤ s.began := hframe.began
  have hsending : s.sending = now ∨ now ≤ s.sending := hframe.sending
  have hread : s.readTimer.expiry = now + r := hframe.readTimer.expiry
  have hwrite : s.writeTimer.expiry = now + w := hframe.writeTimer.expiry
  exact ⟨by omega, by omega, by omega, by omega⟩

theorem readTimer_due {due : Timer → Nat → Prop} {s s' : Hosted}
    (h : Hosted.Step due s .readTimer s') : due s.readTimer s.clock := by
  cases h with
  | readTimer _ hdue => exact hdue

theorem writeTimer_due {due : Timer → Nat → Prop} {s s' : Hosted}
    (h : Hosted.Step due s .writeTimer s') : due s.writeTimer s.clock := by
  cases h with
  | writeTimer _ hdue => exact hdue

section Transitions

variable {t : Transition Hosted Happening}

theorem perRequest_of_fromConstruction (h : Timed r w t.before)
    (hs : Hosted.Step Timer.Due t.before t.label t.after) (ht : FromConstruction t) :
    PerRequest r w t := by
  have hread := h.readExpiry
  have hwrite := h.writeExpiry
  constructor
  · intro hl
    rw [hl] at hs
    have hdue : t.before.readTimer.expiry ≤ t.before.clock := readTimer_due hs
    have hbegan := ht.read hl
    omega
  · intro hl
    rw [hl] at hs
    have hdue : t.before.writeTimer.expiry ≤ t.before.clock := writeTimer_due hs
    have hsending := ht.write hl
    omega

theorem fromConstruction_of_prompt (hr : 0 < r) (hw : 0 < w) (h : Timed r w t.before)
    (hprompt : Prompt t) (ht : PerRequest r w t) : FromConstruction t := by
  constructor
  · intro hl
    have hread := h.readExpiry
    have hbegan := h.began
    have hclock := hprompt.read hl
    have hper := ht.read hl
    omega
  · intro hl
    have hwrite := h.writeExpiry
    have hsending := h.sending
    have hclock := hprompt.write hl
    have hper := ht.write hl
    omega

end Transitions

/-- **Timeouts are per request** in every run whose timers stop the connection only
for what began with it; of a wait that completes as soon as it can, nothing less
will do. -/
theorem timeouts_per_request (hr : 0 < r) (hw : 0 < w) {db : Bool} {command : CommandType}
    {limit now : Nat} {ts : List (Transition Hosted Happening)} {s : Hosted}
    (hrun : Run (Hosted.Step Timer.Due) (.construct (.construct db command limit r w) now) ts s) :
    ((∀ t ∈ ts, FromConstruction t) → ∀ t ∈ ts, PerRequest r w t) ∧
      ∀ t ∈ ts, Prompt t → (PerRequest r w t ↔ FromConstruction t) := by
  have htimed : ∀ t ∈ ts, Timed r w t.before ∧ Hosted.Step Timer.Due t.before t.label t.after := by
    intro t ht
    obtain ⟨ts₁, hbefore, hs, -⟩ := hrun.of_mem ht
    exact ⟨timed_run hbefore, hs⟩
  constructor
  · intro hok t ht
    obtain ⟨h, hs⟩ := htimed t ht
    exact perRequest_of_fromConstruction h hs (hok t ht)
  · intro t ht hprompt
    obtain ⟨h, hs⟩ := htimed t ht
    exact ⟨fromConstruction_of_prompt hr hw h hprompt, perRequest_of_fromConstruction h hs⟩

/-- A client that sends nothing. -/
theorem timeouts_per_request_silent :
    ∃ ts s, Run (Hosted.Step Timer.Due) (.construct (.construct true .none 0 10 10) 0) ts s ∧
      s.stopped = true ∧ ∀ t ∈ ts, PerRequest 10 10 t := by
  have h₁ := Run.start.snoc (.start rfl : Hosted.Step Timer.Due
    (.construct (.construct true .none 0 10 10) 0) .start _)
  have h₂ := h₁.snoc (.tick (by decide : _ ≤ 10))
  have h₃ := h₂.snoc (.readTimer (by decide) (by decide))
  refine ⟨_, _, h₃, rfl, (timeouts_per_request (by decide) (by decide) h₃).1 ?_⟩
  simp only [List.nil_append, List.cons_append, List.forall_mem_cons]
  refine ⟨⟨nofun, nofun⟩, ⟨nofun, nofun⟩, ⟨fun _ => rfl, nofun⟩, ?_⟩
  exact fun _ h => absurd h List.not_mem_nil

/-- A second request that begins at 5 is given no more than the first one: its wait is
over at 10. -/
theorem second_request_stopped :
    ∃ ts s, Run (Hosted.Step Timer.Due) (.construct (.construct true .none 0 10 10) 0) ts s ∧
      s.began = 5 ∧ s.clock = 10 ∧ s.stopped = true ∧ ¬ ∀ t ∈ ts, PerRequest 10 10 t := by
  have h₁ := Run.start.snoc (.start rfl : Hosted.Step Timer.Due
    (.construct (.construct true .none 0 10 10) 0) .start _)
  have h₂ := h₁.snoc (.tick (by decide : _ ≤ 5))
  have h₃ := h₂.snoc (.read_map (text "ping\n") (fun _ => none) (by decide) (by decide) (by decide))
  have h₄ := h₃.snoc (.written rfl)
  have h₅ := h₄.snoc (.tick (by decide : _ ≤ 10))
  have h₆ := h₅.snoc (.readTimer (by decide) (by decide))
  refine ⟨_, _, h₆, rfl, rfl, rfl, fun h => ?_⟩
  have hlast := (h _ (List.mem_append_right _ (List.mem_singleton_self _))).read rfl
  exact absurd hlast (by decide)

end Quitsies.Tcp
