import Mathlib.Data.Finset.Basic
import Quitsies.Interaction.Pool

/-!
# Shutting a server down

Accept handlers, `connection_manager::stop` and the signal handler as programs
over the acceptor and the set of connections, run by any number of threads. The
signal handler closes the acceptor and stops what is in the set. An accept handler
that has seen the acceptor open inserts its connection later.
-/

namespace Quitsies.Tcp

open Interaction Interaction.Pool

/-- The atomic steps of the handlers; `κ` are the connections. -/
inductive ManagerCall (κ : Type) where
  | isOpen
  | insert (c : κ)
  | connectionStart (c : κ)
  | doAccept
  | erase (c : κ)
  | connectionStop (c : κ)
  | close
  | stopAll
  deriving DecidableEq

variable {κ : Type}

def ManagerResult : ManagerCall κ → Type
  | .isOpen => Bool
  | _ => Unit

abbrev ManagerEvent (κ : Type) := Event (ManagerCall κ) ManagerResult

abbrev HandlerProg (κ : Type) := Prog (ManagerCall κ) ManagerResult Unit

/-- `connection_manager::start`. -/
def managerStart (c : κ) (rest : HandlerProg κ) : HandlerProg κ :=
  .call (.insert c) fun _ => .call (.connectionStart c) fun _ => rest

/-- `connection_manager::stop`. -/
def managerStop (c : κ) : HandlerProg κ :=
  .call (.erase c) fun _ => .call (.connectionStop c) .done

/-- The handler of `do_accept`, with `c` the connection it makes; `ec` is whether
the accept failed. -/
def onAccept (ec : Bool) (c : κ) : HandlerProg κ :=
  .call .isOpen fun isOpen =>
    if !isOpen then .done ()
    else if !ec then managerStart c (.call .doAccept .done)
    else .call .doAccept .done

/-- The handler of `do_await_stop`. -/
def onSignal : HandlerProg κ := .call .close fun _ => .call .stopAll .done

inductive Handler (κ : Type) where
  | accept (ec : Bool) (c : κ)
  | stop (c : κ)
  | signal

def Handler.program : Handler κ → HandlerProg κ
  | .accept ec c => onAccept ec c
  | .stop c => managerStop c
  | .signal => onSignal

/-- The acceptor, `_connections`, and which connections have been started and
stopped so far. -/
structure Manager (κ : Type) where
  isOpen : Bool
  connections : Finset κ
  started : Finset κ
  stopped : Finset κ

namespace Manager

variable [DecidableEq κ]

/-- A server that listens and has accepted nothing. -/
def listening : Manager κ := ⟨true, ∅, ∅, ∅⟩

/-- An accept that is asked for again lets a handler come later; handlers may come
at any time here. -/
def perform (m : Manager κ) : (op : ManagerCall κ) → ManagerResult op × Manager κ
  | .isOpen => (m.isOpen, m)
  | .insert c => ((), { m with connections := insert c m.connections })
  | .connectionStart c => ((), { m with started := insert c m.started })
  | .doAccept => ((), m)
  | .erase c => ((), { m with connections := m.connections.erase c })
  | .connectionStop c => ((), { m with stopped := insert c m.stopped })
  | .close => ((), { m with isOpen := false })
  | .stopAll => ((), { m with stopped := m.stopped ∪ m.connections, connections := ∅ })

/-- One atomic step. -/
def Allows (m : Manager κ) (e : ManagerEvent κ) (m' : Manager κ) : Prop :=
  m.perform e.1 = (e.2, m')

theorem allows_perform (m : Manager κ) (op : ManagerCall κ) :
    m.Allows ⟨op, (m.perform op).1⟩ (m.perform op).2 := rfl

theorem Allows.after {m m' : Manager κ} {e : ManagerEvent κ} (h : m.Allows e m') :
    m' = (m.perform e.1).2 := (congrArg Prod.snd h).symm

end Manager

/-- Threads that run handlers. -/
abbrev Threads (ι κ : Type) := Pool ι (Manager κ) (Handler κ) (ManagerCall κ) ManagerResult Unit

abbrev ThreadAction (ι κ : Type) :=
  Action ι (Manager κ) (Handler κ) (ManagerCall κ) ManagerResult Unit

/-- What a handler does after a step. -/
def Follows : ManagerEvent κ → ManagerCall κ ⊕ Unit → Prop
  | ⟨.isOpen, true⟩, front => (∃ c, front = .inl (.insert c)) ∨ front = .inl .doAccept
  | ⟨.isOpen, false⟩, front => front = .inr ()
  | ⟨.insert c, _⟩, front => front = .inl (.connectionStart c)
  | ⟨.connectionStart _, _⟩, front => front = .inl .doAccept
  | ⟨.doAccept, _⟩, front => front = .inr ()
  | ⟨.erase c, _⟩, front => front = .inl (.connectionStop c)
  | ⟨.connectionStop _, _⟩, front => front = .inr ()
  | ⟨.close, _⟩, front => front = .inl .stopAll
  | ⟨.stopAll, _⟩, front => front = .inr ()

theorem handler_chained (q : Handler κ) : q.program.Chained Follows := by
  cases q with
  | accept ec c =>
    intro isOpen
    cases isOpen with
    | false => exact ⟨rfl, trivial⟩
    | true =>
      cases ec with
      | true => exact ⟨.inr rfl, fun _ => ⟨rfl, trivial⟩⟩
      | false =>
        exact ⟨.inl ⟨c, rfl⟩, fun _ => ⟨rfl, fun _ => ⟨rfl, fun _ => ⟨rfl, trivial⟩⟩⟩⟩
  | stop c => exact fun _ => ⟨rfl, fun _ => ⟨rfl, trivial⟩⟩
  | signal => exact fun _ => ⟨rfl, fun _ => ⟨rfl, trivial⟩⟩

/-- The steps that only ever come after another one. -/
def ManagerCall.Later : ManagerCall κ → Prop
  | .insert _ => True
  | .connectionStart _ => True
  | .connectionStop _ => True
  | .stopAll => True
  | _ => False

/-- The step they come after. -/
def ManagerCall.After : ManagerCall κ → ManagerEvent κ → Prop
  | .insert _, e => e = ⟨.isOpen, true⟩
  | .connectionStart c, e => e.1 = .insert c
  | .connectionStop c, e => e.1 = .erase c
  | .stopAll, e => e.1 = .close
  | _, _ => True

theorem follows_after {e : ManagerEvent κ} {op : ManagerCall κ} (h : Follows e (.inl op)) :
    op.After e := by
  obtain ⟨call, r⟩ := e
  cases call with
  | isOpen =>
    cases r with
    | true =>
      rcases h with ⟨c, h⟩ | h
      · cases h
        rfl
      · cases h
        trivial
    | false => cases h
  | _ => cases h <;> first | rfl | trivial

theorem handler_front_not_later {q : Handler κ} {op : ManagerCall κ}
    (h : q.program.front = .inl op) : ¬ op.Later := by
  cases q <;> cases h <;> exact id

/-! ## One step of a thread -/

section Steps

variable {ι : Type} [DecidableEq ι] [DecidableEq κ] {s s' : Threads ι κ} {l : ThreadAction ι κ}

abbrev ThreadStep : Threads ι κ → ThreadAction ι κ → Threads ι κ → Prop :=
  Pool.Step Handler.program Manager.Allows fun _ => True

abbrev Tracked (s : Threads ι κ) : Prop := OnTrack Handler.program (fun _ => True) s

/-- A handler that is about to take such a step was about to before, or has just
taken the step it comes after. -/
theorem about_later (ht : Tracked s) (hs : ThreadStep s l s') {j : ι} {op : ManagerCall κ}
    (hop : op.Later) (h : About s' j op) :
    About s j op ∨ ∃ q e, l = .perform j q e ∧ op.After e := by
  rcases about_inv handler_chained ht hs h with ⟨hsame, -⟩ | ⟨q, hq⟩ | ⟨q, e, hl, -, he⟩
  · exact .inl hsame
  · exact absurd hop (handler_front_not_later hq)
  · exact .inr ⟨q, e, hl, follows_after he⟩

/-- A step either leaves the acceptor and the connections alone or is a call on them. -/
theorem manager_step (hs : ThreadStep s l s') :
    s'.world = s.world ∨ ∃ i q e, l = .perform i q e ∧ About s i e.1 ∧
      s'.world = (s.world.perform e.1).2 := by
  rcases hs.world_inv with hw | ⟨i, q, past, e, next, hl, hi, he⟩
  · exact .inl hw
  · exact .inr ⟨i, q, e, hl, ⟨q, past, next, hi⟩, Manager.Allows.after he⟩

theorem perform_world {i : ι} {q : Handler κ} {e : ManagerEvent κ}
    (hs : ThreadStep s (.perform i q e) s') : s'.world = (s.world.perform e.1).2 := by
  obtain ⟨-, -, -, he, -⟩ := hs.perform_inv
  exact Manager.Allows.after he

/-- A connection that has been started, or is about to be. -/
def Begun (s : Threads ι κ) (c : κ) : Prop :=
  c ∈ s.world.started ∨ ∃ i, About s i (.connectionStart c)

/-- A connection that is in the set, has been stopped, or is about to be. -/
def Held (s : Threads ι κ) (c : κ) : Prop :=
  c ∈ s.world.connections ∨ c ∈ s.world.stopped ∨ ∃ i, About s i (.connectionStop c)

/-- A connection is begun only through the set. -/
theorem begun_step (ht : Tracked s) (hs : ThreadStep s l s') {c : κ} (h : Begun s' c) :
    Begun s c ∨ c ∈ s'.world.connections := by
  rcases h with hc | ⟨j, hj⟩
  · rcases manager_step hs with hw | ⟨i, q, ⟨op, r⟩, rfl, hi, hw⟩
    · rw [hw] at hc
      exact .inl (.inl hc)
    · rw [hw] at hc
      cases op with
      | connectionStart d =>
        rcases Finset.mem_insert.mp hc with rfl | hc
        · exact .inl (.inr ⟨i, hi⟩)
        · exact .inl (.inl hc)
      | _ => exact .inl (.inl hc)
  · rcases about_later ht hs (show ManagerCall.Later (.connectionStart c) from trivial) hj
      with hj | ⟨q, ⟨op, r⟩, rfl, hop⟩
    · exact .inl (.inr ⟨j, hj⟩)
    · obtain rfl : op = .insert c := hop
      rw [perform_world hs]
      exact .inr (Finset.mem_insert_self c _)

theorem stopped_step (hs : ThreadStep s l s') {c : κ} (h : c ∈ s.world.stopped) :
    c ∈ s'.world.stopped := by
  rcases manager_step hs with hw | ⟨i, q, ⟨op, r⟩, -, -, hw⟩
  · rw [hw]
    exact h
  · rw [hw]
    cases op with
    | connectionStop d => exact Finset.mem_insert_of_mem h
    | stopAll => exact Finset.mem_union_left _ h
    | _ => exact h

/-- A connection leaves the set only to be stopped. -/
theorem held_of_connection (ht : Tracked s) (hs : ThreadStep s l s') {c : κ}
    (h : c ∈ s.world.connections) : Held s' c := by
  rcases manager_step hs with hw | ⟨i, q, ⟨op, r⟩, rfl, -, hw⟩
  · exact .inl (hw ▸ h)
  · cases op with
    | insert d => exact .inl (hw ▸ Finset.mem_insert_of_mem h)
    | erase d =>
      by_cases hd : c = d
      · subst hd
        obtain ⟨-, past, rest, hi, hfollows⟩ := hs.follows handler_chained ht
        cases rest with
        | done a => cases hfollows
        | call op next =>
          obtain rfl : op = .connectionStop c := Sum.inl.inj hfollows
          exact .inr (.inr ⟨i, q, past, next, hi⟩)
      · exact .inl (hw ▸ Finset.mem_erase.mpr ⟨hd, h⟩)
    | stopAll => exact .inr (.inl (hw ▸ Finset.mem_union_right _ h))
    | _ => exact .inl (hw ▸ h)

theorem held_step (ht : Tracked s) (hs : ThreadStep s l s') {c : κ} (h : Held s c) :
    Held s' c := by
  rcases h with hc | hc | ⟨i, hi⟩
  · exact held_of_connection ht hs hc
  · exact .inr (.inl (stopped_step hs hc))
  · rcases hi.stays hs with hi | ⟨q, ⟨op, r⟩, rfl, hop⟩
    · exact .inr (.inr ⟨i, hi⟩)
    · obtain rfl : op = .connectionStop c := hop
      have hw := perform_world hs
      exact .inr (.inl (hw ▸ Finset.mem_insert_self c _))

/-- The invariant: nothing that was begun is forgotten, and the acceptor is closed
before the set is swept. -/
structure Accounted (s : Threads ι κ) : Prop where
  begun : ∀ c, Begun s c → Held s c
  closing : ∀ i, About s i .stopAll → s.world.isOpen = false

theorem isOpen_step (hs : ThreadStep s l s') (h : s.world.isOpen = false) :
    s'.world.isOpen = false := by
  rcases manager_step hs with hw | ⟨i, q, ⟨op, r⟩, -, -, hw⟩
  · rw [hw]
    exact h
  · rw [hw]
    cases op with
    | close => rfl
    | _ => exact h

theorem Accounted.step (h : Accounted s) (ht : Tracked s) (hs : ThreadStep s l s') :
    Accounted s' := by
  constructor
  · intro c hc
    rcases begun_step ht hs hc with hc | hc
    · exact held_step ht hs (h.begun c hc)
    · exact .inl hc
  · intro i hi
    rcases about_later ht hs (show ManagerCall.Later .stopAll from trivial) hi
      with hi | ⟨q, ⟨op, r⟩, rfl, hop⟩
    · exact isOpen_step hs (h.closing i hi)
    · obtain rfl : op = .close := hop
      rw [perform_world hs]
      rfl

/-! ## The sweep -/

/-- The set is swept, and nothing can come into it any more. -/
structure Swept (s : Threads ι κ) : Prop where
  closed : s.world.isOpen = false
  empty : s.world.connections = ∅
  inserting : ∀ i c, ¬ About s i (.insert c)

/-- When the set is swept, no accept handler that has found the acceptor open has
still to insert its connection. -/
def SweptLast (t : Transition (Threads ι κ) (ThreadAction ι κ)) : Prop :=
  ∀ i q e, t.label = .perform i q e → e.1 = .stopAll → ∀ j c, ¬ About t.before j (.insert c)

/-- With the acceptor closed no handler comes to insert. -/
theorem inserting_step (ht : Tracked s) (hs : ThreadStep s l s') (hclosed : s.world.isOpen = false)
    (h : ∀ i c, ¬ About s i (.insert c)) (i : ι) (c : κ) : ¬ About s' i (.insert c) := by
  intro hi
  rcases about_later ht hs (show ManagerCall.Later (.insert c) from trivial) hi
    with hi | ⟨q, e, rfl, hop⟩
  · exact h i c hi
  · obtain rfl : e = ⟨.isOpen, true⟩ := hop
    obtain ⟨-, -, -, he, -⟩ := hs.perform_inv
    have hopen : s.world.isOpen = true := congrArg Prod.fst he
    rw [hclosed] at hopen
    cases hopen

theorem Swept.step (h : Swept s) (ht : Tracked s) (hs : ThreadStep s l s') : Swept s' := by
  refine ⟨isOpen_step hs h.closed, ?_, inserting_step ht hs h.closed h.inserting⟩
  rcases manager_step hs with hw | ⟨i, q, ⟨op, r⟩, -, hi, hw⟩
  · rw [hw]
    exact h.empty
  · rw [hw]
    cases op with
    | insert c => exact absurd hi (h.inserting i c)
    | erase c =>
      show s.world.connections.erase c = ∅
      rw [h.empty]
      rfl
    | stopAll => rfl
    | _ => exact h.empty

theorem Accounted.sweep (h : Accounted s) (ht : Tracked s) {i : ι} {q : Handler κ}
    {e : ManagerEvent κ} (hs : ThreadStep s (.perform i q e) s') (he : e.1 = .stopAll)
    (hok : SweptLast ⟨s, .perform i q e, s'⟩) : Swept s' := by
  obtain ⟨op, r⟩ := e
  obtain rfl : op = .stopAll := he
  obtain ⟨past, next, hi, -, -⟩ := hs.perform_inv
  have hclosed := h.closing i ⟨q, past, next, hi⟩
  refine ⟨isOpen_step hs hclosed, ?_, inserting_step ht hs hclosed (hok i q _ rfl rfl)⟩
  rw [perform_world hs]
  rfl

end Steps

/-! ## Runs -/

section Runs

variable {ι : Type} [DecidableEq ι] [DecidableEq κ] {s : Threads ι κ}
  {ts : List (Transition (Threads ι κ) (ThreadAction ι κ))}

/-- The runs of the threads of a server that has just begun to listen. -/
abbrev Serves (ts : List (Transition (Threads ι κ) (ThreadAction ι κ))) (s : Threads ι κ) : Prop :=
  Run ThreadStep (Pool.initial Manager.listening) ts s

/-- The signal handler has returned, and no other handler is running. -/
structure ShutDown (ts : List (Transition (Threads ι κ) (ThreadAction ι κ))) (s : Threads ι κ) :
    Prop where
  signalled : ∃ t ∈ ts, ∃ i past a, t.label = .finish i .signal past a
  idle : ∀ i, s.client i = .idle

/-- No connection is left. -/
structure NoneLeft (s : Threads ι κ) : Prop where
  empty : s.world.connections = ∅
  stopped : s.world.started ⊆ s.world.stopped

theorem accounted_run (h : Serves ts s) : Accounted s := by
  refine h.history (fun _ => True) (fun _ s => Accounted s) ?_ ?_ fun _ _ => trivial
  · constructor
    · intro c hc
      rcases hc with hc | ⟨i, hi⟩
      · exact absurd hc (Finset.notMem_empty c)
      · exact absurd hi (not_about_initial _ i _)
    · intro i hi
      exact absurd hi (not_about_initial _ i _)
  · intro ts s l s' hrun ih hs _
    exact ih.step (onTrack_run hrun) hs

/-- Once the set has been swept it stays so. -/
theorem swept_run (h : Serves ts s) (hok : ∀ t ∈ ts, SweptLast t) :
    (∃ t ∈ ts, ∃ i q e, t.label = .perform i q e ∧ e.1 = .stopAll) → Swept s := by
  refine h.history SweptLast (fun ts s =>
    (∃ t ∈ ts, ∃ i q e, t.label = .perform i q e ∧ e.1 = .stopAll) → Swept s) nofun ?_ hok
  intro ts s l s' hrun ih hs hlast hswept
  obtain ⟨t, ht, i, q, e, hl, he⟩ := hswept
  rcases List.mem_append.mp ht with hold | hnew
  · exact (ih ⟨t, hold, i, q, e, hl, he⟩).step (onTrack_run hrun) hs
  · obtain rfl := List.mem_singleton.mp hnew
    obtain rfl : l = .perform i q e := hl
    exact (accounted_run hrun).sweep (onTrack_run hrun) hs he hlast

/-- The signal handler does not return before it has swept the set. -/
theorem ShutDown.swept (h : ShutDown ts s) (hrun : Serves ts s) :
    ∃ t ∈ ts, ∃ i q e, t.label = .perform i q e ∧ e.1 = .stopAll := by
  obtain ⟨t, ht, i, past, a, hl⟩ := h.signalled
  obtain ⟨-, hperforms, hrecorded⟩ := finished_run hrun ht hl
  obtain ⟨r, rest, hpast, hrest⟩ := Prog.performs_call.mp hperforms
  obtain ⟨r', rest', hpast', -⟩ := Prog.performs_call.mp hrest
  have hmem : (⟨.stopAll, r'⟩ : ManagerEvent κ) ∈ events past := by
    rw [hpast, hpast']
    simp
  obtain ⟨we, hwe, he⟩ := List.mem_map.mp hmem
  obtain ⟨u, hu, hlabel, -⟩ := hrecorded we hwe
  exact ⟨u, hu, i, .signal, we.2, hlabel, congrArg Sigma.fst he⟩

/-- **Shutdown leaves no live connection** in every run that sweeps the set only when
no accept handler still has a connection to insert. -/
theorem shutdown_leaves_none (h : Serves ts s) (hok : ∀ t ∈ ts, SweptLast t)
    (hdown : ShutDown ts s) : NoneLeft s := by
  have hswept := swept_run h hok (hdown.swept h)
  refine ⟨hswept.empty, ?_⟩
  intro c hc
  rcases (accounted_run h).begun c (.inl hc) with hin | hstopped | ⟨i, hi⟩
  · rw [hswept.empty] at hin
    exact absurd hin (Finset.notMem_empty c)
  · exact hstopped
  · exact absurd hi (not_about_idle (hdown.idle i) _)

end Runs

/-- One thread accepts connection `0`, and then the other shuts down. -/
theorem shutdown_leaves_none_accepted :
    ∃ (ts : List (Transition (Threads Bool Nat) (ThreadAction Bool Nat))) (s : Threads Bool Nat),
      Serves ts s ∧ 0 ∈ s.world.started ∧ NoneLeft s := by
  have h₀ : Serves [] (Pool.initial Manager.listening : Threads Bool Nat) := .start
  have h₁ := h₀.snoc (.start (i := true) (q := .accept false 0) rfl trivial)
  have h₂ := h₁.snoc (.perform (i := true) rfl (Manager.allows_perform ..))
  have h₃ := h₂.snoc (.perform (i := true) rfl (Manager.allows_perform ..))
  have h₄ := h₃.snoc (.perform (i := true) rfl (Manager.allows_perform ..))
  have h₅ := h₄.snoc (.perform (i := true) rfl (Manager.allows_perform ..))
  have h₆ := h₅.snoc (.finish (i := true) rfl)
  have h₇ := h₆.snoc (.start (i := false) (q := .signal) rfl trivial)
  have h₈ := h₇.snoc (.perform (i := false) rfl (Manager.allows_perform ..))
  have h₉ := h₈.snoc (.perform (i := false) rfl (Manager.allows_perform ..))
  have h₁₀ := h₉.snoc (.finish (i := false) rfl)
  refine ⟨_, _, h₁₀, by decide, shutdown_leaves_none h₁₀ ?_ ⟨?_, ?_⟩⟩
  · intro t ht i q e hl he j c hj
    obtain ⟨q', past, next, hj⟩ := hj
    simp only [List.nil_append, List.cons_append, List.mem_cons, List.not_mem_nil, or_false] at ht
    rcases ht with rfl | rfl | rfl | rfl | rfl | rfl | rfl | rfl | rfl | rfl <;> cases hl <;>
      cases he
    cases j <;> cases hj
  · exact ⟨_, List.mem_append_right _ (List.mem_singleton_self _), false, _, _, rfl⟩
  · intro j
    cases j <;> rfl

/-- The accept handler finds the acceptor open, the signal handler closes it and
sweeps the set, and then the connection is inserted and started. -/
theorem shutdown_leaves_late :
    ∃ (ts : List (Transition (Threads Bool Nat) (ThreadAction Bool Nat))) (s : Threads Bool Nat),
      Serves ts s ∧ ShutDown ts s ∧ ¬ NoneLeft s := by
  have h₀ : Serves [] (Pool.initial Manager.listening : Threads Bool Nat) := .start
  have h₁ := h₀.snoc (.start (i := true) (q := .accept false 0) rfl trivial)
  have h₂ := h₁.snoc (.perform (i := true) rfl (Manager.allows_perform ..))
  have h₃ := h₂.snoc (.start (i := false) (q := .signal) rfl trivial)
  have h₄ := h₃.snoc (.perform (i := false) rfl (Manager.allows_perform ..))
  have h₅ := h₄.snoc (.perform (i := false) rfl (Manager.allows_perform ..))
  have h₆ := h₅.snoc (.finish (i := false) rfl)
  have h₇ := h₆.snoc (.perform (i := true) rfl (Manager.allows_perform ..))
  have h₈ := h₇.snoc (.perform (i := true) rfl (Manager.allows_perform ..))
  have h₉ := h₈.snoc (.perform (i := true) rfl (Manager.allows_perform ..))
  have h₁₀ := h₉.snoc (.finish (i := true) rfl)
  refine ⟨_, _, h₁₀, ⟨?_, ?_⟩, fun hnone => absurd hnone.empty (by decide)⟩
  · exact ⟨_, List.mem_append_left _ (List.mem_append_left _ (List.mem_append_left _
      (List.mem_append_left _ (List.mem_append_right _ (List.mem_singleton_self _))))),
      false, _, _, rfl⟩
  · intro j
    cases j <;> rfl

end Quitsies.Tcp
