import Mathlib.Data.List.Induction
import Mathlib.Logic.Function.Basic
import Quitsies.Interaction.Prog
import Quitsies.Interaction.Run

/-!
# Clients that share one component

Any number of clients run requests, each a program, against one shared world.
A step lets one client start a request, perform its next call as one atomic
action, or return. Which requests may be started and what an atomic call may do
are parameters. Each client keeps the calls of its current request together
with the world each was performed in, so that the answer of a request can be
related to what its own calls met.
-/

namespace Quitsies.Interaction

/-- What a client is doing: the request, its calls so far with the world each
found, and the rest of its program. -/
inductive Client (ω Q Op : Type) (Res : Op → Type) (A : Type) where
  | idle
  | busy (q : Q) (past : List (ω × Event Op Res)) (rest : Prog Op Res A)

inductive Action (ι ω Q Op : Type) (Res : Op → Type) (A : Type) where
  | start (i : ι) (q : Q)
  | perform (i : ι) (q : Q) (e : Event Op Res)
  | finish (i : ι) (q : Q) (past : List (ω × Event Op Res)) (a : A)

structure Pool (ι ω Q Op : Type) (Res : Op → Type) (A : Type) where
  world : ω
  client : ι → Client ω Q Op Res A

namespace Pool

variable {ι ω Q Op : Type} {Res : Op → Type} {A : Type}

/-- Client `i` becomes `c` and the world becomes `w`. -/
def move [DecidableEq ι] (s : Pool ι ω Q Op Res A) (i : ι) (c : Client ω Q Op Res A) (w : ω) :
    Pool ι ω Q Op Res A := ⟨w, Function.update s.client i c⟩

@[simp] theorem move_world [DecidableEq ι] (s : Pool ι ω Q Op Res A) (i : ι)
    (c : Client ω Q Op Res A) (w : ω) : (s.move i c w).world = w := rfl

@[simp] theorem move_client_self [DecidableEq ι] (s : Pool ι ω Q Op Res A) (i : ι)
    (c : Client ω Q Op Res A) (w : ω) : (s.move i c w).client i = c := Function.update_self ..

theorem move_client_ne [DecidableEq ι] (s : Pool ι ω Q Op Res A) {i j : ι}
    (c : Client ω Q Op Res A) (w : ω) (h : j ≠ i) :
    (s.move i c w).client j = s.client j := Function.update_of_ne h ..

variable (program : Q → Prog Op Res A) (allow : ω → Event Op Res → ω → Prop) (offered : Q → Prop)

inductive Step [DecidableEq ι] :
    Pool ι ω Q Op Res A → Action ι ω Q Op Res A → Pool ι ω Q Op Res A → Prop
  | start {s : Pool ι ω Q Op Res A} {i : ι} {q : Q} :
      s.client i = .idle → offered q →
      Step s (.start i q) (s.move i (.busy q [] (program q)) s.world)
  | perform {s : Pool ι ω Q Op Res A} {i : ι} {q : Q} {past : List (ω × Event Op Res)}
      {op : Op} {next : Res op → Prog Op Res A} {r : Res op} {w : ω} :
      s.client i = .busy q past (.call op next) → allow s.world ⟨op, r⟩ w →
      Step s (.perform i q ⟨op, r⟩)
        (s.move i (.busy q (past ++ [(s.world, ⟨op, r⟩)]) (next r)) w)
  | finish {s : Pool ι ω Q Op Res A} {i : ι} {q : Q} {past : List (ω × Event Op Res)} {a : A} :
      s.client i = .busy q past (.done a) →
      Step s (.finish i q past a) (s.move i .idle s.world)

variable {program allow offered}

/-- What a call can do. -/
theorem Step.perform_inv [DecidableEq ι] {s s' : Pool ι ω Q Op Res A} {i : ι} {q : Q}
    {e : Event Op Res} (h : Step program allow offered s (.perform i q e) s') :
    ∃ past next, s.client i = .busy q past (.call e.1 next) ∧ allow s.world e s'.world ∧
      s' = s.move i (.busy q (past ++ [(s.world, e)]) (next e.2)) s'.world := by
  cases h with
  | perform hi hw => exact ⟨_, _, hi, hw, rfl⟩

/-- What a return can do. -/
theorem Step.finish_inv [DecidableEq ι] {s s' : Pool ι ω Q Op Res A} {i : ι} {q : Q}
    {past : List (ω × Event Op Res)} {a : A}
    (h : Step program allow offered s (.finish i q past a) s') :
    s.client i = .busy q past (.done a) ∧ s' = s.move i .idle s.world := by
  cases h with
  | finish hi => exact ⟨hi, rfl⟩

/-- How a client came to be where it is: it has not moved, it has just started, or
it has just performed its last call. -/
theorem Step.busy_inv [DecidableEq ι] {s s' : Pool ι ω Q Op Res A} {l : Action ι ω Q Op Res A}
    (h : Step program allow offered s l s') {j : ι} {q : Q} {past : List (ω × Event Op Res)}
    {rest : Prog Op Res A} (hj : s'.client j = .busy q past rest) :
    (s.client j = .busy q past rest ∧ ∀ e, l ≠ .perform j q e) ∨
      (offered q ∧ past = [] ∧ rest = program q) ∨
      ∃ past' e next, l = .perform j q e ∧ s.client j = .busy q past' (.call e.1 next) ∧
        past = past' ++ [(s.world, e)] ∧ rest = next e.2 := by
  cases h with
  | @start i q' hi ha =>
    by_cases he : j = i
    · subst he
      rw [move_client_self] at hj
      cases hj
      exact .inr (.inl ⟨ha, rfl, rfl⟩)
    · rw [move_client_ne _ _ _ he] at hj
      exact .inl ⟨hj, nofun⟩
  | @perform i q' past' op next r w hi hw =>
    by_cases he : j = i
    · subst he
      rw [move_client_self] at hj
      cases hj
      exact .inr (.inr ⟨past', ⟨op, r⟩, next, rfl, hi, rfl, rfl⟩)
    · rw [move_client_ne _ _ _ he] at hj
      refine .inl ⟨hj, fun e hl => he ?_⟩
      cases hl
      rfl
  | @finish i q' past' a hi =>
    by_cases he : j = i
    · subst he
      rw [move_client_self] at hj
      cases hj
    · rw [move_client_ne _ _ _ he] at hj
      exact .inl ⟨hj, nofun⟩

/-- The request of a busy client is one that it has just been given, or one that it was
busy with and does not return from. -/
theorem Step.request_inv [DecidableEq ι] {s s' : Pool ι ω Q Op Res A} {l : Action ι ω Q Op Res A}
    (h : Step program allow offered s l s') {j : ι} {q : Q} {past : List (ω × Event Op Res)}
    {rest : Prog Op Res A} (hj : s'.client j = .busy q past rest) :
    l = .start j q ∨ (∃ past' rest', s.client j = .busy q past' rest') ∧
      ∀ q' past' a, l ≠ .finish j q' past' a := by
  cases h with
  | @start i q' hi ha =>
    by_cases he : j = i
    · subst he
      rw [move_client_self] at hj
      cases hj
      exact .inl rfl
    · rw [move_client_ne _ _ _ he] at hj
      exact .inr ⟨⟨_, _, hj⟩, nofun⟩
  | @perform i q' past' op next r w hi hw =>
    by_cases he : j = i
    · subst he
      rw [move_client_self] at hj
      cases hj
      exact .inr ⟨⟨_, _, hi⟩, nofun⟩
    · rw [move_client_ne _ _ _ he] at hj
      exact .inr ⟨⟨_, _, hj⟩, nofun⟩
  | @finish i q' past' a hi =>
    by_cases he : j = i
    · subst he
      rw [move_client_self] at hj
      cases hj
    · rw [move_client_ne _ _ _ he] at hj
      refine .inr ⟨⟨_, _, hj⟩, fun q₁ past₁ a₁ hl => he ?_⟩
      cases hl
      rfl

/-- The world changes by calls only. -/
theorem Step.world_inv [DecidableEq ι] {s s' : Pool ι ω Q Op Res A} {l : Action ι ω Q Op Res A}
    (h : Step program allow offered s l s') :
    s'.world = s.world ∨ ∃ i q past e next, l = .perform i q e ∧
      s.client i = .busy q past (.call e.1 next) ∧ allow s.world e s'.world := by
  cases h with
  | start hi ha => exact .inl rfl
  | finish hi => exact .inl rfl
  | perform hi hw => exact .inr ⟨_, _, _, _, _, rfl, hi, hw⟩

theorem Step.mono [DecidableEq ι] {allow' : ω → Event Op Res → ω → Prop} {offered' : Q → Prop}
    (ha : ∀ w e w', allow w e w' → allow' w e w') (ho : ∀ q, offered q → offered' q)
    {s s' : Pool ι ω Q Op Res A} {l : Action ι ω Q Op Res A}
    (h : Step program allow offered s l s') : Step program allow' offered' s l s' := by
  cases h with
  | start hi hq => exact .start hi (ho _ hq)
  | perform hi hw => exact .perform hi (ha _ _ _ hw)
  | finish hi => exact .finish hi

variable (program allow offered)

/-- All clients idle. -/
def initial (w : ω) : Pool ι ω Q Op Res A := ⟨w, fun _ => .idle⟩

/-! ## What every client is doing -/

/-- The events of a client's current request, without the worlds they met. -/
def events (past : List (ω × Event Op Res)) : List (Event Op Res) := past.map Prod.snd

@[simp] theorem events_nil : events ([] : List (ω × Event Op Res)) = [] := rfl

@[simp] theorem events_snoc (past : List (ω × Event Op Res)) (w : ω) (e : Event Op Res) :
    events (past ++ [(w, e)]) = events past ++ [e] := by simp [events]

/-- Every busy client runs an offered request and is where its calls led it. -/
def OnTrack (s : Pool ι ω Q Op Res A) : Prop :=
  ∀ i q past rest, s.client i = .busy q past rest →
    offered q ∧ (program q).Reaches (events past) rest

theorem onTrack_initial (w : ω) :
    OnTrack program offered (initial w : Pool ι ω Q Op Res A) := by
  intro i q past rest h
  cases h

theorem onTrack_step [DecidableEq ι] {s s' : Pool ι ω Q Op Res A} {l : Action ι ω Q Op Res A}
    (h : OnTrack program offered s) (hs : Step program allow offered s l s') :
    OnTrack program offered s' := by
  intro j q past rest hj
  rcases hs.busy_inv hj with ⟨hsame, -⟩ | ⟨hq, rfl, rfl⟩ | ⟨past', e, next, -, hi, rfl, rfl⟩
  · exact h j q past rest hsame
  · exact ⟨hq, .here _⟩
  · obtain ⟨hq, hreaches⟩ := h j q past' _ hi
    rw [events_snoc]
    exact ⟨hq, hreaches.snoc e.2⟩

variable {program allow offered}

theorem onTrack_run [DecidableEq ι] {w : ω}
    {ts : List (Transition (Pool ι ω Q Op Res A) (Action ι ω Q Op Res A))}
    {s : Pool ι ω Q Op Res A} (h : Run (Step program allow offered) (initial w) ts s) :
    OnTrack program offered s :=
  h.invariant (onTrack_initial program offered w) fun _ _ _ => onTrack_step program allow offered

/-! ## What a client does next -/

/-- The next step of the client performs this call. -/
def About (s : Pool ι ω Q Op Res A) (i : ι) (op : Op) : Prop :=
  ∃ q past next, s.client i = .busy q past (.call op next)

theorem not_about_initial (w : ω) (i : ι) (op : Op) :
    ¬ About (initial w : Pool ι ω Q Op Res A) i op := by
  intro h
  obtain ⟨q, past, next, h⟩ := h
  cases h

theorem not_about_idle {s : Pool ι ω Q Op Res A} {i : ι} (h : s.client i = .idle) (op : Op) :
    ¬ About s i op := by
  intro ha
  obtain ⟨q, past, next, ha⟩ := ha
  rw [h] at ha
  cases ha

/-- A client that was about to perform a call still is, or has performed it. -/
theorem About.stays [DecidableEq ι] {s s' : Pool ι ω Q Op Res A} {l : Action ι ω Q Op Res A}
    {j : ι} {op : Op} (h : About s j op) (hs : Step program allow offered s l s') :
    About s' j op ∨ ∃ q e, l = .perform j q e ∧ e.1 = op := by
  obtain ⟨q, past, next, hj⟩ := h
  cases hs with
  | @start i q' hi _ =>
    have hne : j ≠ i := by
      rintro rfl
      rw [hi] at hj
      cases hj
    exact .inl ⟨q, past, next, (move_client_ne _ _ _ hne).trans hj⟩
  | @perform i q' past' op' next' r w hi _ =>
    by_cases hne : j = i
    · subst hne
      rw [hi] at hj
      obtain ⟨rfl, rfl, hcall⟩ := Client.busy.inj hj
      obtain ⟨rfl, -⟩ := Prog.call.inj hcall
      exact .inr ⟨q', ⟨op', r⟩, rfl, rfl⟩
    · exact .inl ⟨q, past, next, (move_client_ne _ _ _ hne).trans hj⟩
  | @finish i q' past' a hi =>
    have hne : j ≠ i := by
      rintro rfl
      rw [hi] at hj
      cases hj
    exact .inl ⟨q, past, next, (move_client_ne _ _ _ hne).trans hj⟩

/-- How a client came to be about to perform a call: it was already, its program
begins with it, or the call it has just performed leads there. -/
theorem about_inv [DecidableEq ι] {R : Event Op Res → Op ⊕ A → Prop}
    (hchain : ∀ q, (program q).Chained R) {s s' : Pool ι ω Q Op Res A}
    {l : Action ι ω Q Op Res A} (ht : OnTrack program offered s)
    (hs : Step program allow offered s l s') {j : ι} {op : Op} (h : About s' j op) :
    (About s j op ∧ ∀ q e, l ≠ .perform j q e) ∨ (∃ q, (program q).front = .inl op) ∨
      ∃ q e, l = .perform j q e ∧ About s j e.1 ∧ R e (.inl op) := by
  obtain ⟨q, past, next, hj⟩ := h
  rcases hs.busy_inv hj with ⟨hsame, hother⟩ | ⟨-, -, hrest⟩ | ⟨past', e, next', rfl, hi, -, hrest⟩
  · refine .inl ⟨⟨q, past, next, hsame⟩, fun q' e hl => ?_⟩
    subst hl
    obtain ⟨past', next', hi, -, -⟩ := hs.perform_inv
    rw [hsame] at hi
    obtain ⟨rfl, -, -⟩ := Client.busy.inj hi
    exact hother e rfl
  · exact .inr (.inl ⟨q, by rw [← hrest]; rfl⟩)
  · refine .inr (.inr ⟨q, e, rfl, ⟨q, past', next', hi⟩, ?_⟩)
    have hlink := ((hchain q).reaches (ht j q past' _ hi).2 e.2).1
    rwa [← hrest] at hlink

/-- What a client does after a call. -/
theorem Step.follows [DecidableEq ι] {R : Event Op Res → Op ⊕ A → Prop}
    (hchain : ∀ q, (program q).Chained R) {s s' : Pool ι ω Q Op Res A} {i : ι} {q : Q}
    {e : Event Op Res} (ht : OnTrack program offered s)
    (hs : Step program allow offered s (.perform i q e) s') :
    About s i e.1 ∧ ∃ past rest, s'.client i = .busy q past rest ∧ R e rest.front := by
  obtain ⟨past, next, hi, -, hs'⟩ := hs.perform_inv
  refine ⟨⟨q, past, next, hi⟩, past ++ [(s.world, e)], next e.2, ?_, ?_⟩
  · rw [hs', move_client_self]
  · exact ((hchain q).reaches (ht i q past _ hi).2 e.2).1

/-! ## Where the calls of a request were performed -/

/-- Every call of `past` was performed by client `i` in the world noted with it. -/
def Recorded (ts : List (Transition (Pool ι ω Q Op Res A) (Action ι ω Q Op Res A))) (i : ι) (q : Q)
    (past : List (ω × Event Op Res)) : Prop :=
  ∀ we ∈ past, ∃ t ∈ ts, t.label = .perform i q we.2 ∧ t.before.world = we.1

theorem Recorded.mono {ts ts' : List (Transition (Pool ι ω Q Op Res A) (Action ι ω Q Op Res A))}
    {i : ι} {q : Q} {past : List (ω × Event Op Res)} (h : Recorded ts i q past)
    (hts : ∀ t ∈ ts, t ∈ ts') : Recorded ts' i q past := by
  intro we hwe
  obtain ⟨t, ht, hl⟩ := h we hwe
  exact ⟨t, hts t ht, hl⟩

theorem recorded_run [DecidableEq ι] {w : ω}
    {ts : List (Transition (Pool ι ω Q Op Res A) (Action ι ω Q Op Res A))}
    {s : Pool ι ω Q Op Res A} (h : Run (Step program allow offered) (initial w) ts s) :
    ∀ i q past rest, s.client i = .busy q past rest → Recorded ts i q past := by
  refine h.history (fun _ => True)
    (fun ts s => ∀ i q past rest, s.client i = .busy q past rest → Recorded ts i q past)
    nofun ?_ fun _ _ => trivial
  intro ts s l s' _ ih hs _ j q past rest hj
  have hkeep : ∀ t ∈ ts, t ∈ ts ++ [⟨s, l, s'⟩] := fun t ht => List.mem_append_left _ ht
  rcases hs.busy_inv hj with ⟨hsame, -⟩ | ⟨-, rfl, -⟩ | ⟨past', e, next, rfl, hi, rfl, -⟩
  · exact (ih j q past rest hsame).mono hkeep
  · exact nofun
  · intro we hwe
    rcases List.mem_append.mp hwe with hold | hnew
    · exact (ih j q past' _ hi).mono hkeep we hold
    · obtain rfl := List.mem_singleton.mp hnew
      exact ⟨_, List.mem_append_right _ (List.mem_singleton_self _), rfl, rfl⟩

/-- A request that returned was offered, ran its program to the end, and performed
its calls in the run. -/
theorem finished_run [DecidableEq ι] {w : ω}
    {ts : List (Transition (Pool ι ω Q Op Res A) (Action ι ω Q Op Res A))}
    {s : Pool ι ω Q Op Res A} (h : Run (Step program allow offered) (initial w) ts s)
    {t : Transition (Pool ι ω Q Op Res A) (Action ι ω Q Op Res A)} (ht : t ∈ ts) {i : ι} {q : Q}
    {past : List (ω × Event Op Res)} {a : A} (hl : t.label = .finish i q past a) :
    offered q ∧ (program q).Performs (events past) a ∧ Recorded ts i q past := by
  obtain ⟨ts₁, hrun, hstep, hsub⟩ := h.of_mem ht
  rw [hl] at hstep
  obtain ⟨hi, -⟩ := hstep.finish_inv
  obtain ⟨hq, hreaches⟩ := onTrack_run hrun i q past _ hi
  exact ⟨hq, hreaches, (recorded_run hrun i q past _ hi).mono hsub⟩

/-! ## Mutual exclusion

A world with one lock, and programs that unlock only what they have locked. -/

section Mutex

variable (isLock isUnlock : Op → Bool) (locked : ω → Bool)

/-- Whether a request that has performed `es` holds the lock. -/
def held (es : List (Event Op Res)) : Bool :=
  es.foldl (fun h e => if isLock e.1 then true else if isUnlock e.1 then false else h) false

@[simp] theorem held_nil : held isLock isUnlock ([] : List (Event Op Res)) = false := rfl

@[simp] theorem held_snoc (es : List (Event Op Res)) (e : Event Op Res) :
    held isLock isUnlock (es ++ [e]) =
      if isLock e.1 then true else if isUnlock e.1 then false
      else held isLock isUnlock es := by
  simp [held]

/-- What has not been locked is not held. -/
theorem held_eq_false {es : List (Event Op Res)} (h : ∀ e ∈ es, isLock e.1 = false) :
    held isLock isUnlock es = false := by
  induction es using List.reverseRecOn with
  | nil => rfl
  | append_singleton es e ih =>
    have hes := ih fun e' he' => h e' (List.mem_append_left _ he')
    have he := h e (List.mem_append_right _ (List.mem_singleton_self e))
    rw [held_snoc, he, hes]
    simp

/-- The lock as a part of the world: it blocks while it is taken, and nothing
else changes it. -/
structure LockLaw (allow : ω → Event Op Res → ω → Prop) : Prop where
  lock : ∀ {w e w'}, allow w e w' → isLock e.1 = true → locked w = false ∧ locked w' = true
  unlock : ∀ {w e w'}, allow w e w' → isLock e.1 = false → isUnlock e.1 = true →
    locked w' = false
  other : ∀ {w e w'}, allow w e w' → isLock e.1 = false → isUnlock e.1 = false →
    locked w' = locked w

/-- Offered programs unlock only while they hold the lock. -/
def Disciplined (program : Q → Prog Op Res A) (offered : Q → Prop) : Prop :=
  ∀ q es op next, offered q → (program q).Reaches es (.call op next) →
    isLock op = false → isUnlock op = true → held isLock isUnlock es = true

/-- Client `i` holds the lock. -/
def Holds (s : Pool ι ω Q Op Res A) (i : ι) : Prop :=
  ∃ q past rest, s.client i = .busy q past rest ∧ held isLock isUnlock (events past) = true

variable {isLock isUnlock locked}

theorem LockLaw.mono {allow allow' : ω → Event Op Res → ω → Prop}
    (h : LockLaw isLock isUnlock locked allow) (ha : ∀ w e w', allow' w e w' → allow w e w') :
    LockLaw isLock isUnlock locked allow' where
  lock hw := h.lock (ha _ _ _ hw)
  unlock hw := h.unlock (ha _ _ _ hw)
  other hw := h.other (ha _ _ _ hw)

theorem holds_iff {s : Pool ι ω Q Op Res A} {i : ι} {q : Q} {past : List (ω × Event Op Res)}
    {rest : Prog Op Res A} (h : s.client i = .busy q past rest) :
    Holds isLock isUnlock s i ↔ held isLock isUnlock (events past) = true := by
  constructor
  · intro hholds
    obtain ⟨q', past', rest', h', hh⟩ := hholds
    rw [h] at h'
    cases h'
    exact hh
  · exact fun hh => ⟨q, past, rest, h, hh⟩

theorem not_holds_idle {s : Pool ι ω Q Op Res A} {i : ι} (h : s.client i = .idle) :
    ¬ Holds isLock isUnlock s i := by
  intro hholds
  obtain ⟨q, past, rest, h', -⟩ := hholds
  rw [h] at h'
  cases h'

theorem holds_congr {s s' : Pool ι ω Q Op Res A} {j : ι} (h : s'.client j = s.client j) :
    Holds isLock isUnlock s' j ↔ Holds isLock isUnlock s j := by
  simp only [Holds, h]

/-- At most one client holds the lock, and while one does the lock is taken. -/
structure Exclusive (isLock isUnlock : Op → Bool) (locked : ω → Bool)
    (s : Pool ι ω Q Op Res A) : Prop where
  one : ∀ i j, Holds isLock isUnlock s i → Holds isLock isUnlock s j → i = j
  taken : ∀ i, Holds isLock isUnlock s i → locked s.world = true

/-- A step in which no client comes to hold the lock and the lock stays as it is
keeps the exclusion. -/
theorem Exclusive.of_le {s s' : Pool ι ω Q Op Res A} (h : Exclusive isLock isUnlock locked s)
    (hle : ∀ j, Holds isLock isUnlock s' j → Holds isLock isUnlock s j)
    (hw : locked s'.world = locked s.world) : Exclusive isLock isUnlock locked s' where
  one i j hi hj := h.one i j (hle i hi) (hle j hj)
  taken i hi := by rw [hw]; exact h.taken i (hle i hi)

theorem exclusive_step [DecidableEq ι] (law : LockLaw isLock isUnlock locked allow)
    (hd : Disciplined isLock isUnlock program offered) {s s' : Pool ι ω Q Op Res A}
    {l : Action ι ω Q Op Res A} (ht : OnTrack program offered s)
    (h : Exclusive isLock isUnlock locked s) (hs : Step program allow offered s l s') :
    Exclusive isLock isUnlock locked s' := by
  cases hs with
  | @start i q hi ha =>
    refine h.of_le (fun j hj => ?_) rfl
    by_cases he : j = i
    · subst he
      rw [holds_iff (move_client_self ..)] at hj
      cases hj
    · exact (holds_congr (move_client_ne _ _ _ he)).mp hj
  | @finish i q past a hi =>
    refine h.of_le (fun j hj => ?_) rfl
    by_cases he : j = i
    · subst he
      exact absurd hj (not_holds_idle (move_client_self ..))
    · exact (holds_congr (move_client_ne _ _ _ he)).mp hj
  | @perform i q past op next r w hi hw =>
    let s' := s.move i (.busy q (past ++ [(s.world, ⟨op, r⟩)]) (next r)) w
    have hother : ∀ j, j ≠ i →
        (Holds isLock isUnlock s' j ↔ Holds isLock isUnlock s j) :=
      fun j hj => holds_congr (move_client_ne _ _ _ hj)
    have hself : Holds isLock isUnlock s' i ↔
        held isLock isUnlock (events past ++ [⟨op, r⟩]) = true := by
      rw [holds_iff (move_client_self ..), events_snoc]
    cases hl : isLock op with
    | true =>
      obtain ⟨hfree, htaken⟩ := law.lock hw hl
      have hnone : ∀ j, ¬ Holds isLock isUnlock s j := fun j hj => by
        rw [h.taken j hj] at hfree; cases hfree
      have honly : ∀ j, Holds isLock isUnlock s' j → j = i := fun j hj => by
        by_contra hne
        exact hnone j ((hother j hne).mp hj)
      exact ⟨fun j k hj hk => (honly j hj).trans (honly k hk).symm, fun _ _ => htaken⟩
    | false =>
      cases hu : isUnlock op with
      | true =>
        have hi' := (holds_iff hi).mpr
          (hd q _ op next (ht i q past _ hi).1 (ht i q past _ hi).2 hl hu)
        have hnone : ∀ j, ¬ Holds isLock isUnlock s' j := fun j hj => by
          by_cases he : j = i
          · subst he
            rw [hself, held_snoc, hl, hu] at hj
            cases hj
          · exact he (h.one j i ((hother j he).mp hj) hi')
        exact ⟨fun j k hj => absurd hj (hnone j), fun j hj => absurd hj (hnone j)⟩
      | false =>
        refine h.of_le (fun j hj => ?_) (law.other hw hl hu)
        by_cases he : j = i
        · subst he
          rw [hself, held_snoc, hl, hu] at hj
          exact (holds_iff hi).mpr hj
        · exact (hother j he).mp hj

/-- **Mutual exclusion.** In every reachable state at most one client holds the lock. -/
theorem exclusive_run [DecidableEq ι] (law : LockLaw isLock isUnlock locked allow)
    (hd : Disciplined isLock isUnlock program offered) {w : ω}
    {ts : List (Transition (Pool ι ω Q Op Res A) (Action ι ω Q Op Res A))}
    {s : Pool ι ω Q Op Res A} (h : Run (Step program allow offered) (initial w) ts s) :
    Exclusive isLock isUnlock locked s := by
  refine (h.invariant (I := fun s => OnTrack program offered s ∧
    Exclusive isLock isUnlock locked s) ⟨onTrack_initial program offered w, ?_⟩ ?_).2
  · exact ⟨fun i _ hi => absurd hi (not_holds_idle rfl), fun i hi => absurd hi (not_holds_idle rfl)⟩
  · exact fun _ _ _ hi hs =>
      ⟨onTrack_step program allow offered hi.1 hs, exclusive_step law hd hi.1 hi.2 hs⟩

/-- While the lock is taken a client holds it, unless a request has returned with it. -/
theorem locked_run [DecidableEq ι] (law : LockLaw isLock isUnlock locked allow) {w : ω}
    (hw : locked w = false)
    {ts : List (Transition (Pool ι ω Q Op Res A) (Action ι ω Q Op Res A))}
    {s : Pool ι ω Q Op Res A} (h : Run (Step program allow offered) (initial w) ts s)
    (hl : locked s.world = true) :
    (∃ i, Holds isLock isUnlock s i) ∨
      ∃ t ∈ ts, ∃ i q past a, t.label = .finish i q past a ∧
        held isLock isUnlock (events past) = true := by
  revert hl
  refine h.history (fun _ => True) (fun ts s => locked s.world = true →
    (∃ i, Holds isLock isUnlock s i) ∨ ∃ t ∈ ts, ∃ i q past a, t.label = .finish i q past a ∧
      held isLock isUnlock (events past) = true) ?_ ?_ fun _ _ => trivial
  · intro hl
    rw [show locked (initial w : Pool ι ω Q Op Res A).world = false from hw] at hl
    cases hl
  · intro ts s l s' _ ih hs _ hl
    have hkeep : ∀ t ∈ ts, t ∈ ts ++ [⟨s, l, s'⟩] := fun t ht => List.mem_append_left _ ht
    cases hs with
    | @start i q hi ha =>
      rcases ih hl with ⟨j, hj⟩ | ⟨t, ht, hleak⟩
      · refine .inl ⟨j, (holds_congr (move_client_ne _ _ _ ?_)).mpr hj⟩
        intro he
        subst he
        exact not_holds_idle hi hj
      · exact .inr ⟨t, hkeep t ht, hleak⟩
    | @finish i q past a hi =>
      rcases ih hl with ⟨j, hj⟩ | ⟨t, ht, hleak⟩
      · by_cases he : j = i
        · subst he
          have hheld := (holds_iff hi).mp hj
          exact .inr ⟨_, List.mem_append_right _ (List.mem_singleton_self _), j, q, past, a,
            rfl, hheld⟩
        · exact .inl ⟨j, (holds_congr (move_client_ne _ _ _ he)).mpr hj⟩
      · exact .inr ⟨t, hkeep t ht, hleak⟩
    | @perform i q past op next r w' hi hallow =>
      let c : Client ω Q Op Res A := .busy q (past ++ [(s.world, ⟨op, r⟩)]) (next r)
      have hself : Holds isLock isUnlock (s.move i c w') i ↔
          held isLock isUnlock (events past ++ [⟨op, r⟩]) = true := by
        rw [holds_iff (move_client_self ..), events_snoc]
      cases hlock : isLock op with
      | true => exact .inl ⟨i, hself.mpr (by rw [held_snoc, hlock]; rfl)⟩
      | false =>
        cases hunlock : isUnlock op with
        | true =>
          have hfree := law.unlock hallow hlock hunlock
          rw [show locked (s.move i c w').world = false from hfree] at hl
          cases hl
        | false =>
          have hsame := law.other hallow hlock hunlock
          rcases ih (hsame.symm.trans hl) with ⟨j, hj⟩ | ⟨t, ht, hleak⟩
          · by_cases he : j = i
            · subst he
              refine .inl ⟨j, hself.mpr ?_⟩
              rw [held_snoc, hlock, hunlock]
              exact (holds_iff hi).mp hj
            · exact .inl ⟨j, (holds_congr (move_client_ne _ _ _ he)).mpr hj⟩
          · exact .inr ⟨t, hkeep t ht, hleak⟩

end Mutex

end Pool

end Quitsies.Interaction
