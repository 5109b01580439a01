import Mathlib.Data.List.Basic

/-!
# Programs as trees of calls

A program performs calls on a component it does not control and computes with
what the calls return. Its meaning is the tree of calls itself: nothing is said
here about what a call does, so a fact about the tree holds against every
behaviour of the component. `Reaches` cuts a run of the program at any point,
and `Performs` is a run that went to the end.
-/

namespace Quitsies.Interaction

/-- A program over the calls `Op`, where the call `op` returns a `Res op`. -/
inductive Prog (Op : Type) (Res : Op → Type) (α : Type) where
  | done (a : α)
  | call (op : Op) (next : Res op → Prog Op Res α)

/-- One performed call together with what it returned. -/
abbrev Event (Op : Type) (Res : Op → Type) := (op : Op) × Res op

namespace Prog

variable {Op : Type} {Res : Op → Type} {α β γ : Type}

def bind : Prog Op Res α → (α → Prog Op Res β) → Prog Op Res β
  | done a, f => f a
  | call op next, f => call op fun r => (next r).bind f

instance : Monad (Prog Op Res) where
  pure := done
  bind := bind

/-- Perform one call and return its result. -/
def perform (op : Op) : Prog Op Res (Res op) := call op done

@[simp] theorem pure_eq_done (a : α) : (pure a : Prog Op Res α) = done a := rfl

@[simp] theorem done_bind (a : α) (f : α → Prog Op Res β) : done a >>= f = f a := rfl

@[simp] theorem call_bind (op : Op) (next : Res op → Prog Op Res α) (f : α → Prog Op Res β) :
    call op next >>= f = call op fun r => next r >>= f := rfl

theorem bind_done (p : Prog Op Res α) : p >>= done = p := by
  induction p with
  | done a => rfl
  | call op next ih => simp only [call_bind, ih]

theorem bind_assoc (p : Prog Op Res α) (f : α → Prog Op Res β) (g : β → Prog Op Res γ) :
    p >>= f >>= g = p >>= fun a => f a >>= g := by
  induction p with
  | done a => rfl
  | call op next ih => simp only [call_bind, ih]

instance : LawfulMonad (Prog Op Res) :=
  LawfulMonad.mk' _ bind_done (fun _ _ => rfl) bind_assoc

@[simp] theorem map_done (f : α → β) (a : α) : f <$> (done a : Prog Op Res α) = done (f a) := rfl

@[simp] theorem map_call (f : α → β) (op : Op) (next : Res op → Prog Op Res α) :
    f <$> call op next = call op fun r => f <$> next r := rfl

/-! ## Every value a program can return -/

/-- Every value the program can return, whatever its calls return, satisfies `P`. -/
def Returns (P : α → Prop) : Prog Op Res α → Prop
  | done a => P a
  | call _ next => ∀ r, (next r).Returns P

@[simp] theorem returns_done {P : α → Prop} {a : α} :
    (done a : Prog Op Res α).Returns P ↔ P a := Iff.rfl

@[simp] theorem returns_call {P : α → Prop} {op : Op} {next : Res op → Prog Op Res α} :
    (call op next).Returns P ↔ ∀ r, (next r).Returns P := Iff.rfl

theorem Returns.mono {P Q : α → Prop} {p : Prog Op Res α} (h : p.Returns P)
    (hPQ : ∀ a, P a → Q a) : p.Returns Q := by
  induction p with
  | done a => exact hPQ a h
  | call op next ih => exact fun r => ih r (h r)

theorem Returns.and {P Q : α → Prop} {p : Prog Op Res α} (hP : p.Returns P) (hQ : p.Returns Q) :
    p.Returns fun a => P a ∧ Q a := by
  induction p with
  | done a => exact ⟨hP, hQ⟩
  | call op next ih => exact fun r => ih r (hP r) (hQ r)

theorem Returns.bind {P : α → Prop} {Q : β → Prop} {p : Prog Op Res α}
    {f : α → Prog Op Res β} (h : p.Returns P) (hf : ∀ a, P a → (f a).Returns Q) :
    (p >>= f).Returns Q := by
  induction p with
  | done a => exact hf a h
  | call op next ih => exact fun r => ih r (h r)

theorem returns_map {P : β → Prop} {p : Prog Op Res α} {f : α → β} (h : ∀ a, P (f a)) :
    (f <$> p).Returns P := by
  induction p with
  | done a => exact h a
  | call op next ih => exact fun r => ih r

/-- Two continuations that agree on every value the program can return are
interchangeable after it. -/
theorem Returns.bind_congr {P : α → Prop} {p : Prog Op Res α}
    {f g : α → Prog Op Res β} (h : p.Returns P) (hfg : ∀ a, P a → f a = g a) :
    p >>= f = p >>= g := by
  induction p with
  | done a => exact hfg a h
  | call op next ih => simp only [call_bind, fun r => ih r (h r)]

/-! ## Partial and complete runs -/

/-- Performing `events` in order leaves the program `q` still to run. -/
inductive Reaches : Prog Op Res α → List (Event Op Res) → Prog Op Res α → Prop
  | here (p : Prog Op Res α) : Reaches p [] p
  | call {op : Op} {next : Res op → Prog Op Res α} {r : Res op}
      {events : List (Event Op Res)} {q : Prog Op Res α} :
      Reaches (next r) events q → Reaches (call op next) (⟨op, r⟩ :: events) q

/-- The program can perform exactly `events` and then return `a`. -/
def Performs (p : Prog Op Res α) (events : List (Event Op Res)) (a : α) : Prop :=
  Reaches p events (done a)

@[simp] theorem reaches_done {a : α} {events : List (Event Op Res)} {q : Prog Op Res α} :
    Reaches (done a) events q ↔ events = [] ∧ q = done a := by
  constructor
  · rintro ⟨⟩; exact ⟨rfl, rfl⟩
  · rintro ⟨rfl, rfl⟩; exact .here _

theorem reaches_call {op : Op} {next : Res op → Prog Op Res α}
    {events : List (Event Op Res)} {q : Prog Op Res α} :
    Reaches (call op next) events q ↔
      (events = [] ∧ q = call op next) ∨
      ∃ r rest, events = ⟨op, r⟩ :: rest ∧ Reaches (next r) rest q := by
  constructor
  · rintro (_ | h)
    · exact .inl ⟨rfl, rfl⟩
    · exact .inr ⟨_, _, rfl, h⟩
  · rintro (⟨rfl, rfl⟩ | ⟨r, rest, rfl, h⟩)
    · exact .here _
    · exact .call h

/-- A partial run is extended by the call the program performs next. -/
theorem Reaches.snoc {p : Prog Op Res α} {events : List (Event Op Res)} {op : Op}
    {next : Res op → Prog Op Res α} (h : Reaches p events (Prog.call op next)) (r : Res op) :
    Reaches p (events ++ [⟨op, r⟩]) (next r) := by
  generalize hq : Prog.call op next = q at h
  induction h with
  | here p => subst hq; exact .call (.here _)
  | call h ih => exact .call (ih hq)

theorem reaches_map {p : Prog Op Res α} {f : α → β} {events : List (Event Op Res)}
    {q : Prog Op Res β} (h : Reaches (f <$> p) events q) :
    ∃ p', Reaches p events p' ∧ q = f <$> p' := by
  induction p generalizing events with
  | done a =>
    obtain ⟨rfl, rfl⟩ := reaches_done.mp h
    exact ⟨done a, .here _, rfl⟩
  | call op next ih =>
    rcases reaches_call.mp h with ⟨rfl, rfl⟩ | ⟨r, rest, rfl, hr⟩
    · exact ⟨call op next, .here _, rfl⟩
    · obtain ⟨p', hp', rfl⟩ := ih r hr
      exact ⟨p', .call hp', rfl⟩

/-- What a program does next: its next call, or the value it returns. -/
def front : Prog Op Res α → Op ⊕ α
  | done a => .inr a
  | call op _ => .inl op

@[simp] theorem front_done (a : α) : (done a : Prog Op Res α).front = .inr a := rfl

@[simp] theorem front_call (op : Op) (next : Res op → Prog Op Res α) :
    (call op next).front = .inl op := rfl

theorem front_map (f : α → β) (p : Prog Op Res α) :
    (f <$> p).front = Sum.map id f p.front := by
  cases p <;> rfl

/-- Every call the program can come to satisfies `P`. -/
def Calls (P : Op → Prop) : Prog Op Res α → Prop
  | done _ => True
  | call op next => P op ∧ ∀ r, (next r).Calls P

theorem Calls.map {P : Op → Prop} {p : Prog Op Res α} (h : p.Calls P) (f : α → β) :
    (f <$> p).Calls P := by
  induction p with
  | done a => trivial
  | call op next ih => exact ⟨h.1, fun r => ih r (h.2 r)⟩

theorem Calls.reaches {P : Op → Prop} {p q : Prog Op Res α} {events : List (Event Op Res)}
    (h : p.Calls P) (hr : Reaches p events q) : (∀ e ∈ events, P e.1) ∧ q.Calls P := by
  induction hr with
  | here p => exact ⟨nofun, h⟩
  | call hr ih =>
    obtain ⟨hevents, hq⟩ := ih (h.2 _)
    exact ⟨List.forall_mem_cons.mpr ⟨h.1, hevents⟩, hq⟩

/-- What the program does after each of its calls, and knows then, is as `R` says. -/
def Chained (R : Event Op Res → Op ⊕ α → Prop) : Prog Op Res α → Prop
  | done _ => True
  | call op next => ∀ r, R ⟨op, r⟩ (next r).front ∧ (next r).Chained R

theorem Chained.reaches {R : Event Op Res → Op ⊕ α → Prop} {p q : Prog Op Res α}
    {events : List (Event Op Res)} (h : p.Chained R) (hr : Reaches p events q) : q.Chained R := by
  induction hr with
  | here p => exact h
  | call hr ih => exact ih (h _).2

@[simp] theorem performs_done {a b : α} {events : List (Event Op Res)} :
    Performs (done a) events b ↔ events = [] ∧ b = a := by
  simp [Performs]

theorem performs_call {op : Op} {next : Res op → Prog Op Res α}
    {events : List (Event Op Res)} {a : α} :
    Performs (call op next) events a ↔
      ∃ r rest, events = ⟨op, r⟩ :: rest ∧ Performs (next r) rest a := by
  simp [Performs, reaches_call]

/-- A program of one call. -/
theorem performs_single {op : Op} {f : Res op → α} {events : List (Event Op Res)} {a : α} :
    Performs (call op fun r => done (f r)) events a ↔ ∃ r, events = [⟨op, r⟩] ∧ a = f r := by
  simp [performs_call]

/-- Every performed call was the next one at some point of the run. -/
theorem Reaches.of_mem {p q : Prog Op Res α} {events : List (Event Op Res)} {op : Op}
    {r : Res op} (h : Reaches p events q) (hmem : ⟨op, r⟩ ∈ events) :
    ∃ before next, Reaches p before (Prog.call op next) := by
  induction h with
  | here p => cases hmem
  | @call op' next r' events q h ih =>
    rcases List.mem_cons.mp hmem with he | hmem
    · cases he
      exact ⟨[], next, .here _⟩
    · obtain ⟨before, next', hreach⟩ := ih hmem
      exact ⟨⟨op', r'⟩ :: before, next', .call hreach⟩

theorem performs_bind {p : Prog Op Res α} {f : α → Prog Op Res β}
    {events : List (Event Op Res)} {b : β} :
    Performs (p >>= f) events b ↔
      ∃ a first second, events = first ++ second ∧ Performs p first a ∧
        Performs (f a) second b := by
  induction p generalizing events with
  | done a => simp [and_assoc]
  | call op next ih =>
    simp only [call_bind, performs_call, ih]
    constructor
    · rintro ⟨r, rest, rfl, a, first, second, rfl, hp, hf⟩
      exact ⟨a, ⟨op, r⟩ :: first, second, rfl, ⟨r, first, rfl, hp⟩, hf⟩
    · rintro ⟨a, _, second, rfl, ⟨r, first, rfl, hp⟩, hf⟩
      exact ⟨r, first ++ second, rfl, a, first, second, rfl, hp, hf⟩

theorem performs_map {p : Prog Op Res α} {f : α → β} {events : List (Event Op Res)} {b : β} :
    Performs (f <$> p) events b ↔ ∃ a, Performs p events a ∧ b = f a := by
  induction p generalizing events with
  | done a => simp [and_comm]
  | call op next ih =>
    simp only [map_call, performs_call, ih]
    constructor
    · rintro ⟨r, rest, rfl, a, hp, hb⟩
      exact ⟨a, ⟨r, rest, rfl, hp⟩, hb⟩
    · rintro ⟨a, ⟨r, rest, rfl, hp⟩, hb⟩
      exact ⟨r, rest, rfl, a, hp, hb⟩

theorem Returns.of_performs {P : α → Prop} {p : Prog Op Res α} (h : p.Returns P)
    {events : List (Event Op Res)} {a : α} (hp : Performs p events a) : P a := by
  induction p generalizing events with
  | done b =>
    obtain ⟨-, rfl⟩ := performs_done.mp hp
    exact h
  | call op next ih =>
    obtain ⟨r, rest, -, hr⟩ := performs_call.mp hp
    exact ih r (h r) hr

/-- Whatever the calls are, some run goes to the end. -/
theorem exists_performs [∀ op, Nonempty (Res op)] (p : Prog Op Res α) :
    ∃ events a, Performs p events a := by
  induction p with
  | done a => exact ⟨[], a, by simp⟩
  | call op next ih =>
    obtain ⟨events, a, h⟩ := ih (Classical.arbitrary _)
    exact ⟨_, a, performs_call.mpr ⟨_, events, rfl, h⟩⟩

/-- What no value can satisfy is not true of every value. -/
theorem Returns.not_of_not [∀ op, Nonempty (Res op)] {P : α → Prop} {p : Prog Op Res α}
    (h : p.Returns fun a => ¬ P a) : ¬ p.Returns P := by
  intro hP
  obtain ⟨events, a, ha⟩ := exists_performs p
  exact h.of_performs ha (hP.of_performs ha)

/-! ## What a program returns when its calls behave -/

/-- Every value the program can return, as long as its calls are `good`, satisfies `P`. -/
def ReturnsGiven (good : Event Op Res → Prop) (P : α → Prop) : Prog Op Res α → Prop
  | done a => P a
  | call op next => ∀ r, good ⟨op, r⟩ → (next r).ReturnsGiven good P

theorem ReturnsGiven.mono {good : Event Op Res → Prop} {P Q : α → Prop} {p : Prog Op Res α}
    (h : p.ReturnsGiven good P) (hPQ : ∀ a, P a → Q a) : p.ReturnsGiven good Q := by
  induction p with
  | done a => exact hPQ a h
  | call op next ih => exact fun r hr => ih r (h r hr)

theorem ReturnsGiven.map {good : Event Op Res → Prop} {P : α → Prop} {Q : β → Prop}
    {p : Prog Op Res α} {f : α → β} (h : p.ReturnsGiven good P) (hf : ∀ a, P a → Q (f a)) :
    (f <$> p).ReturnsGiven good Q := by
  induction p with
  | done a => exact hf a h
  | call op next ih => exact fun r hr => ih r (h r hr)

theorem ReturnsGiven.of_performs {good : Event Op Res → Prop} {P : α → Prop}
    {p : Prog Op Res α} (h : p.ReturnsGiven good P) {events : List (Event Op Res)} {a : α}
    (hp : Performs p events a) (hgood : ∀ e ∈ events, good e) : P a := by
  induction p generalizing events with
  | done b =>
    obtain ⟨-, rfl⟩ := performs_done.mp hp
    exact h
  | call op next ih =>
    obtain ⟨r, rest, rfl, hr⟩ := performs_call.mp hp
    obtain ⟨hfirst, hrest⟩ := List.forall_mem_cons.mp hgood
    exact ih r (h r hfirst) hr hrest

/-! ## Runs against a component with a state -/

section Component

variable {σ : Type}

/-- Run the program against a component: the value returned, the calls performed
in order, and the state the component is left in. -/
def runWith (component : σ → (op : Op) → Res op × σ) :
    Prog Op Res α → σ → α × List (Event Op Res) × σ
  | done a, s => (a, [], s)
  | call op next, s =>
    let (r, s') := component s op
    let (a, events, s'') := (next r).runWith component s'
    (a, ⟨op, r⟩ :: events, s'')

variable (component : σ → (op : Op) → Res op × σ)

@[simp] theorem runWith_done (a : α) (s : σ) :
    (done a : Prog Op Res α).runWith component s = (a, [], s) := rfl

@[simp] theorem runWith_call (op : Op) (next : Res op → Prog Op Res α) (s : σ) :
    (call op next).runWith component s =
      (((next (component s op).1).runWith component (component s op).2).1,
        ⟨op, (component s op).1⟩ ::
          ((next (component s op).1).runWith component (component s op).2).2.1,
        ((next (component s op).1).runWith component (component s op).2).2.2) := rfl

/-- A run against a component is one of the program's runs. -/
theorem performs_runWith (p : Prog Op Res α) (s : σ) :
    Performs p (p.runWith component s).2.1 (p.runWith component s).1 := by
  induction p generalizing s with
  | done a => simp
  | call op next ih => exact performs_call.mpr ⟨_, _, rfl, ih _ _⟩

theorem runWith_bind (p : Prog Op Res α) (f : α → Prog Op Res β) (s : σ) :
    (p >>= f).runWith component s =
      let first := p.runWith component s
      let second := (f first.1).runWith component first.2.2
      (second.1, first.2.1 ++ second.2.1, second.2.2) := by
  induction p generalizing s with
  | done a => simp
  | call op next ih => simp only [call_bind, runWith_call, ih, List.cons_append]

theorem runWith_map (p : Prog Op Res α) (f : α → β) (s : σ) :
    (f <$> p).runWith component s =
      (f (p.runWith component s).1, (p.runWith component s).2) := by
  induction p generalizing s with
  | done a => rfl
  | call op next ih => simp only [map_call, runWith_call, ih]

end Component

/-! ## Carrying out calls by other programs -/

/-- Replace every call by a program that carries it out. -/
def interpret {Op' : Type} {Res' : Op' → Type} (body : (op : Op) → Prog Op' Res' (Res op)) :
    Prog Op Res α → Prog Op' Res' α
  | done a => done a
  | call op next => body op >>= fun r => (next r).interpret body

/-- The component that answers every call by running a program on a lower one. -/
def via {Op' : Type} {Res' : Op' → Type} {σ : Type}
    (body : (op : Op) → Prog Op' Res' (Res op)) (lower : σ → (op : Op') → Res' op × σ)
    (s : σ) (op : Op) : Res op × σ :=
  (((body op).runWith lower s).1, ((body op).runWith lower s).2.2)

/-- Replacing the calls of a program and running it on the lower component is
running it on the component in between. -/
theorem runWith_interpret {Op' : Type} {Res' : Op' → Type} {σ : Type}
    (body : (op : Op) → Prog Op' Res' (Res op)) (lower : σ → (op : Op') → Res' op × σ)
    (p : Prog Op Res α) (s : σ) :
    ((p.interpret body).runWith lower s).1 = (p.runWith (via body lower) s).1 ∧
      ((p.interpret body).runWith lower s).2.2 = (p.runWith (via body lower) s).2.2 := by
  induction p generalizing s with
  | done a => exact ⟨rfl, rfl⟩
  | call op next ih =>
    rw [interpret, runWith_bind, runWith_call]
    exact ih _ _

/-- A run of the replaced calls is a run of the program, each of whose calls was
carried out by a run of its own. -/
theorem performs_interpret {Op' : Type} {Res' : Op' → Type}
    {body : (op : Op) → Prog Op' Res' (Res op)} {p : Prog Op Res α}
    {events : List (Event Op' Res')} {a : α} (h : (p.interpret body).Performs events a) :
    ∃ parts : List (Event Op Res × List (Event Op' Res')),
      p.Performs (parts.map Prod.fst) a ∧ events = parts.flatMap Prod.snd ∧
        ∀ part ∈ parts, (body part.1.1).Performs part.2 part.1.2 := by
  induction p generalizing events with
  | done b =>
    obtain ⟨rfl, rfl⟩ := performs_done.mp h
    exact ⟨[], performs_done.mpr ⟨rfl, rfl⟩, rfl, by simp⟩
  | call op next ih =>
    obtain ⟨r, first, second, rfl, hbody, hnext⟩ := performs_bind.mp h
    obtain ⟨parts, hparts, rfl, hall⟩ := ih r hnext
    refine ⟨(⟨op, r⟩, first) :: parts, performs_call.mpr ⟨r, _, rfl, hparts⟩, rfl, ?_⟩
    exact List.forall_mem_cons.mpr ⟨hbody, hall⟩

/-- The component `lower` behaves as `upper` does on the states `view` shows. -/
def Simulates {σ τ : Type} (lower : σ → (op : Op) → Res op × σ)
    (upper : τ → (op : Op) → Res op × τ) (view : σ → τ) : Prop :=
  ∀ s op, (lower s op).1 = (upper (view s) op).1 ∧ view (lower s op).2 = (upper (view s) op).2

theorem Simulates.runWith {σ τ : Type} {lower : σ → (op : Op) → Res op × σ}
    {upper : τ → (op : Op) → Res op × τ} {view : σ → τ} (h : Simulates lower upper view)
    (p : Prog Op Res α) (s : σ) :
    (p.runWith lower s).1 = (p.runWith upper (view s)).1 ∧
      view (p.runWith lower s).2.2 = (p.runWith upper (view s)).2.2 := by
  induction p generalizing s with
  | done a => exact ⟨rfl, rfl⟩
  | call op next ih =>
    obtain ⟨hres, hview⟩ := h s op
    rw [runWith_call, runWith_call, ← hres, ← hview]
    exact ih _ _

end Prog

end Quitsies.Interaction
