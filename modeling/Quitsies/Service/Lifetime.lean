import Quitsies.Interaction.Run

/-!
# The database handle from start to exit

`main` constructs the store, parses options, opens the database, serves and
destroys its locals, while the background thread of a statsd aggregator runs the
epoch callback that `rocks::open` registered. Both go through the member `_db`,
which the constructor of `rocks` does not initialise and its destructor deletes
before it lets go of the aggregator.
-/

namespace Quitsies.Service

open Interaction

/-- A pointer is an address, `nullptr` is zero. -/
abbrev Pointer := Nat

/-- How far `main` has come. -/
inductive Course where
  | parsing
  | opening
  | serving
  | unwinding
  | destroying
  | exited
  deriving DecidableEq

/-- The members of `rocks` that matter to the handle, and who may use it. `found` is
what the constructor left in `_db`, `opened` whether `DBWithTTL::Open` was called,
`handle` what it returned, and `registered` whether it was left to a background thread. -/
structure Process where
  course : Course
  db : Pointer
  found : Pointer
  opened : Bool
  handle : Option Pointer
  deleted : Bool
  background : Bool
  registered : Bool

namespace Process

/-- The constructor of `rocks`, which leaves in `_db` what it finds. -/
def construct (found : Pointer) : Process where
  course := .parsing
  db := found
  found := found
  opened := false
  handle := none
  deleted := false
  background := false
  registered := false

/-- The `DBWithTTL::Open` that fails. -/
def openFailed (s : Process) : Process :=
  { s with course := .unwinding, opened := true, db := 0 }

/-- The `DBWithTTL::Open` that succeeds, and the `on_epoch` after it. -/
def openSucceeded (s : Process) (handle : Pointer) : Process :=
  { s with
    course := .serving
    opened := true
    db := handle
    handle := some handle
    registered := true }

/-- The body of `~rocks`. -/
def destroy (s : Process) : Process :=
  if s.db ≠ 0 then { s with course := .destroying, deleted := true, db := 0 }
  else { s with course := .destroying }

end Process

inductive Moment where
  | parseFailed
  | parsed (statsd : Bool)
  | openThrew
  | openFailed
  | openSucceeded (handle : Pointer)
  | request
  | terminated
  | destroy
  | epoch
  | joined
  deriving DecidableEq

/-- One step of `main`, of a thread that serves requests, or of the background
thread. The aggregator is made before `open` and joined after the body of `~rocks`,
with the member `_local_stats`. -/
inductive Process.Step : Process → Moment → Process → Prop
  | parseFailed {s : Process} : s.course = .parsing →
      Step s .parseFailed { s with course := .unwinding }
  | parsed {s : Process} {statsd : Bool} : s.course = .parsing →
      Step s (.parsed statsd) { s with course := .opening, background := statsd }
  | openThrew {s : Process} : s.course = .opening →
      Step s .openThrew { s with course := .unwinding }
  | openFailed {s : Process} : s.course = .opening → Step s .openFailed s.openFailed
  | openSucceeded {s : Process} {handle : Pointer} : s.course = .opening → handle ≠ 0 →
      Step s (.openSucceeded handle) (s.openSucceeded handle)
  | request {s : Process} : s.course = .serving → Step s .request s
  | terminated {s : Process} : s.course = .serving →
      Step s .terminated { s with course := .unwinding }
  | destroy {s : Process} : s.course = .unwinding → Step s .destroy s.destroy
  | epoch {s : Process} : s.background = true → s.registered = true → Step s .epoch s
  | joined {s : Process} : s.course = .destroying →
      Step s .joined { s with course := .exited, background := false }

/-- The pointer that a step dereferences or deletes. -/
def Process.uses (s : Process) : Moment → Option Pointer
  | .request => some s.db
  | .epoch => some s.db
  | .destroy => if s.db ≠ 0 then some s.db else none
  | _ => none

def Process.deletes (s : Process) : Moment → Bool
  | .destroy => s.db ≠ 0
  | _ => false

/-- What a step uses is the open handle. -/
def UsesOpen (t : Transition Process Moment) : Prop :=
  ∀ pointer, t.before.uses t.label = some pointer →
    t.before.handle = some pointer ∧ t.before.deleted = false

/-- The handle is used only while it is open, and deleted at most once. -/
structure HandleSafe (ts : List (Transition Process Moment)) : Prop where
  uses : ∀ t ∈ ts, UsesOpen t
  deletes : ts.countP (fun t => t.before.deletes t.label) ≤ 1

/-- `~rocks` is reached with a `_db` that was set, or happened to be null, and no epoch
callback runs after it has deleted the handle. -/
structure HandleGuarded (t : Transition Process Moment) : Prop where
  destroy : t.label = .destroy → t.before.opened = true ∨ t.before.found = 0
  epoch : t.label = .epoch → t.before.deleted = false

/-! ## What each part of the course knows -/

/-- `_db` as the constructor left it. -/
structure Unopened (s : Process) : Prop where
  db : s.db = s.found
  opened : s.opened = false
  handle : s.handle = none
  deleted : s.deleted = false
  registered : s.registered = false

/-- `_db` after an `Open` that failed. -/
structure Failed (s : Process) : Prop where
  db : s.db = 0
  opened : s.opened = true
  deleted : s.deleted = false
  registered : s.registered = false

/-- `_db` is the handle. -/
structure Open (s : Process) : Prop where
  db : s.handle = some s.db
  ne : s.db ≠ 0
  opened : s.opened = true
  deleted : s.deleted = false

/-- What is left after `~rocks`. -/
structure Destroyed (s : Process) : Prop where
  registered : s.registered = true → s.deleted = true

def Known (s : Process) : Prop :=
  match s.course with
  | .parsing => Unopened s
  | .opening => Unopened s
  | .serving => Open s
  | .unwinding => Unopened s ∨ Failed s ∨ Open s
  | .destroying => Destroyed s
  | .exited => Destroyed s

theorem known_construct (found : Pointer) : Known (.construct found) :=
  ⟨rfl, rfl, rfl, rfl, rfl⟩

variable {s s' : Process} {l : Moment}

theorem known_destroy (h : Unopened s ∨ Failed s ∨ Open s) : Known s.destroy := by
  unfold Process.destroy
  split
  · exact ⟨fun _ => rfl⟩
  · next hdb =>
    refine ⟨fun hregistered => ?_⟩
    rcases h with h | h | h
    · exact absurd (h.registered.symm.trans hregistered) nofun
    · exact absurd (h.registered.symm.trans hregistered) nofun
    · exact absurd h.ne hdb

theorem Known.step (h : Known s) (hs : Process.Step s l s') : Known s' := by
  cases hs with
  | parseFailed hc =>
    simp only [Known, hc] at h
    exact .inl ⟨h.db, h.opened, h.handle, h.deleted, h.registered⟩
  | parsed hc =>
    simp only [Known, hc] at h
    exact ⟨h.db, h.opened, h.handle, h.deleted, h.registered⟩
  | openThrew hc =>
    simp only [Known, hc] at h
    exact .inl ⟨h.db, h.opened, h.handle, h.deleted, h.registered⟩
  | openFailed hc =>
    simp only [Known, hc] at h
    exact .inr (.inl ⟨rfl, rfl, h.deleted, h.registered⟩)
  | openSucceeded hc hne =>
    simp only [Known, hc] at h
    exact ⟨rfl, hne, rfl, h.deleted⟩
  | request _ => exact h
  | terminated hc =>
    simp only [Known, hc] at h
    exact .inr (.inr ⟨h.db, h.ne, h.opened, h.deleted⟩)
  | destroy hc =>
    simp only [Known, hc] at h
    exact known_destroy h
  | epoch _ _ => exact h
  | joined hc =>
    simp only [Known, hc] at h
    exact ⟨h.registered⟩

/-! ## A step is safe exactly when it is guarded -/

theorem destroy_safe_iff (h : Unopened s ∨ Failed s ∨ Open s) :
    UsesOpen ⟨s, .destroy, s'⟩ ↔ s.opened = true ∨ s.found = 0 := by
  have huses : UsesOpen ⟨s, .destroy, s'⟩ ↔
      (s.db ≠ 0 → s.handle = some s.db ∧ s.deleted = false) := by
    unfold UsesOpen Process.uses
    by_cases hdb : s.db = 0 <;> simp [hdb]
  rw [huses]
  rcases h with h | h | h
  · rw [h.db, h.opened, h.handle]
    simp
  · simp [h.db, h.opened]
  · simp [h.db, h.opened, h.deleted]

/-- Once a callback is registered, the handle is open until `~rocks` deletes it. -/
theorem Known.registered (h : Known s) (hr : s.registered = true) :
    s.handle = some s.db ∨ s.deleted = true := by
  unfold Known at h
  split at h
  · exact absurd (h.registered.symm.trans hr) nofun
  · exact absurd (h.registered.symm.trans hr) nofun
  · exact .inl h.db
  · rcases h with h | h | h
    · exact absurd (h.registered.symm.trans hr) nofun
    · exact absurd (h.registered.symm.trans hr) nofun
    · exact .inl h.db
  · exact .inr (h.registered hr)
  · exact .inr (h.registered hr)

theorem epoch_safe_iff (h : Known s) (hr : s.registered = true) :
    UsesOpen ⟨s, .epoch, s'⟩ ↔ s.deleted = false := by
  constructor
  · intro hsafe
    exact (hsafe s.db rfl).2
  · intro hd pointer hp
    obtain rfl := Option.some.inj hp
    refine ⟨?_, hd⟩
    rcases h.registered hr with hopen | hdeleted
    · exact hopen
    · exact absurd (hd.symm.trans hdeleted) nofun

theorem usesOpen_iff_guarded (h : Known s) (hs : Process.Step s l s') :
    UsesOpen ⟨s, l, s'⟩ ↔ HandleGuarded ⟨s, l, s'⟩ := by
  cases hs with
  | destroy hc =>
    simp only [Known, hc] at h
    rw [destroy_safe_iff h]
    exact ⟨fun hsafe => ⟨fun _ => hsafe, nofun⟩, fun hguarded => hguarded.destroy rfl⟩
  | epoch _ hr =>
    rw [epoch_safe_iff h hr]
    exact ⟨fun hsafe => ⟨nofun, fun _ => hsafe⟩, fun hguarded => hguarded.epoch rfl⟩
  | request hc =>
    simp only [Known, hc] at h
    refine ⟨fun _ => ⟨nofun, nofun⟩, fun _ pointer hp => ?_⟩
    obtain rfl := Option.some.inj hp
    exact ⟨h.db, h.deleted⟩
  | parseFailed _ | parsed _ | openThrew _ | openFailed _ | openSucceeded _ _ | terminated _
  | joined _ => exact ⟨fun _ => ⟨nofun, nofun⟩, fun _ => nofun⟩

/-! ## Runs -/

variable {found : Pointer} {ts : List (Transition Process Moment)}

theorem known_run (h : Run Process.Step (.construct found) ts s) : Known s :=
  h.invariant (known_construct found) fun _ _ _ hk hs => hk.step hs

/-- Whether `~rocks` is still to come. -/
def Process.alive (s : Process) : Bool :=
  s.course ≠ .destroying && s.course ≠ .exited

theorem destroy_course (s : Process) : s.destroy.course = .destroying := by
  unfold Process.destroy
  split <;> rfl

/-- `~rocks` runs once, and nothing else deletes. -/
theorem alive_step (hs : Process.Step s l s') :
    (s.alive = true ∧ s'.alive = false) ∨
      (s.deletes l = false ∧ (s'.alive = true → s.alive = true)) := by
  cases hs with
  | destroy hc => exact .inl ⟨by simp [Process.alive, hc], by simp [Process.alive, destroy_course]⟩
  | request _ | epoch _ _ => exact .inr ⟨rfl, id⟩
  | joined hc => exact .inr ⟨rfl, nofun⟩
  | parseFailed hc | parsed hc | openThrew hc | openFailed hc | openSucceeded hc _
  | terminated hc =>
    exact .inr ⟨rfl, fun _ => by simp [Process.alive, hc]⟩

theorem deletes_run (h : Run Process.Step (.construct found) ts s) :
    ts.countP (fun t => t.before.deletes t.label) ≤ if s.alive then 0 else 1 := by
  refine h.history (fun _ => True)
    (fun ts s => ts.countP (fun t => t.before.deletes t.label) ≤ if s.alive then 0 else 1)
    (Nat.le_refl 0) ?_ fun _ _ => trivial
  intro ts s l s' _ ih hs _
  rw [List.countP_append]
  rcases alive_step hs with ⟨hbefore, hafter⟩ | ⟨hdeletes, hkeep⟩
  · rw [hbefore, if_pos rfl] at ih
    rw [hafter]
    have hone : [(⟨s, l, s'⟩ : Transition Process Moment)].countP
        (fun t => t.before.deletes t.label) ≤ 1 := List.countP_le_length
    show _ ≤ 1
    omega
  · have hzero : [(⟨s, l, s'⟩ : Transition Process Moment)].countP
        (fun t => t.before.deletes t.label) = 0 := by simp [hdeletes]
    rw [hzero, Nat.add_zero]
    cases hs' : s'.alive with
    | true =>
      rw [hkeep hs', if_pos rfl] at ih
      exact ih
    | false =>
      refine Nat.le_trans ih ?_
      split
      · exact Nat.zero_le _
      · exact Nat.le_refl 1

/-- **The database handle is used only while it is open** in exactly the runs whose
steps are all guarded. -/
theorem handle_safe_iff (h : Run Process.Step (.construct found) ts s) :
    HandleSafe ts ↔ ∀ t ∈ ts, HandleGuarded t := by
  have hiff : ∀ t ∈ ts, UsesOpen t ↔ HandleGuarded t := by
    intro t ht
    obtain ⟨ts₁, hbefore, hs, -⟩ := h.of_mem ht
    exact usesOpen_iff_guarded (known_run hbefore) hs
  constructor
  · intro hsafe t ht
    exact (hiff t ht).mp (hsafe.uses t ht)
  · intro hguarded
    refine ⟨fun t ht => (hiff t ht).mpr (hguarded t ht), ?_⟩
    have hle := deletes_run h
    split at hle <;> omega

/-- A server that opens, serves and exits between two epochs. -/
theorem handle_safe_served :
    ∃ ts s, Run Process.Step (.construct 7) ts s ∧ s.course = .exited ∧ HandleSafe ts := by
  have h₁ := Run.start.snoc (.parsed rfl : Process.Step (.construct 7) (.parsed true) _)
  have h₂ := h₁.snoc (.openSucceeded rfl (by decide : 9 ≠ 0))
  have h₃ := ((h₂.snoc (.request rfl)).snoc (.epoch rfl rfl)).snoc (.terminated rfl)
  have h₄ := (h₃.snoc (.destroy rfl)).snoc (.joined rfl)
  refine ⟨_, _, h₄, rfl, (handle_safe_iff h₄).mpr ?_⟩
  simp only [List.nil_append, List.cons_append, List.forall_mem_cons]
  refine ⟨⟨nofun, nofun⟩, ⟨nofun, nofun⟩, ⟨nofun, nofun⟩, ⟨nofun, fun _ => rfl⟩, ⟨nofun, nofun⟩,
    ⟨fun _ => .inl rfl, nofun⟩, ⟨nofun, nofun⟩, ?_⟩
  exact fun _ h => absurd h List.not_mem_nil

/-- An option that cannot be parsed, with `_db` found pointing somewhere; and an epoch
between the body of `~rocks` and the end of the background thread. -/
theorem handle_used_unopened :
    (∃ ts s, Run Process.Step (.construct 7) ts s ∧ ¬ HandleSafe ts) ∧
      ∃ ts s, Run Process.Step (.construct 0) ts s ∧ ¬ HandleSafe ts := by
  constructor
  · have h₁ := Run.start.snoc (.parseFailed rfl : Process.Step (.construct 7) .parseFailed _)
    have h₂ := h₁.snoc (.destroy rfl)
    refine ⟨_, _, h₂, fun hsafe => ?_⟩
    have hlast := hsafe.uses _ (List.mem_append_right _ (List.mem_singleton_self _)) 7 rfl
    exact absurd hlast.1 nofun
  · have h₁ := Run.start.snoc (.parsed rfl : Process.Step (.construct 0) (.parsed true) _)
    have h₂ := h₁.snoc (.openSucceeded rfl (by decide : 9 ≠ 0))
    have h₃ := ((h₂.snoc (.terminated rfl)).snoc (.destroy rfl)).snoc (.epoch rfl rfl)
    refine ⟨_, _, h₃, fun hsafe => ?_⟩
    have hlast := hsafe.uses _ (List.mem_append_right _ (List.mem_singleton_self _)) 0 rfl
    exact absurd hlast.2 nofun

end Quitsies.Service
