import Quitsies.Interaction.Census
import Quitsies.Service.BackupInfo
import Quitsies.Db.Rocks

/-!
# The handlers of backups

The endpoints `/backup_create`, `/backup_clean` and `/backup_info` of `rocks`, run by
any number of HTTP threads. Each opens a backup engine of its own and deletes it again.
RocksDB keeps the backups of a directory; it promises nothing where two engines work on
one directory at once.
-/

namespace Quitsies.Service

open Text Interaction Db

/-- The calls of the handlers. An engine goes by the directory it was opened at. -/
inductive BackupCall where
  | openEngine (directory : Bytes)
  | createNewBackup (directory : Bytes)
  | purgeOldBackups (directory : Bytes) (keep : Nat)
  | getBackupInfo (directory : Bytes)
  | deleteEngine (directory : Bytes)
  | counter (name : Bytes)
  deriving DecidableEq

abbrev BackupResult : BackupCall → Type
  | .openEngine _ => RocksStatus
  | .createNewBackup _ => RocksStatus
  | .purgeOldBackups _ _ => RocksStatus
  | .getBackupInfo _ => List BackupInfo
  | .deleteEngine _ => Unit
  | .counter _ => Unit

abbrev BackupProg := Prog BackupCall BackupResult

abbrev BackupEvent := Event BackupCall BackupResult

/-- The directory of the backups of the database at `path`. -/
def backupPath (path : Bytes) : Bytes := path ++ text "_backup"

/-- How a handler that `POST`s concludes. -/
def conclude (error success : Bytes) (status : RocksStatus) : BackupProg HttpResponse := do
  if !status.ok then
    Prog.perform (BackupCall.counter error)
    return ⟨500, status.message⟩
  else
    Prog.perform (BackupCall.counter success)
    return ⟨200, text "Success"⟩

/-- The common body of these: an engine is opened, and does its work if it was. -/
def maintain (path : Bytes) (work : Bytes → BackupProg RocksStatus) (error success : Bytes) :
    BackupProg HttpResponse := do
  let status : RocksStatus ← Prog.perform (BackupCall.openEngine (backupPath path))
  if status.ok then
    let status ← work (backupPath path)
    Prog.perform (BackupCall.deleteEngine (backupPath path))
    conclude error success status
  else conclude error success status

/-- The `POST` of `/backup_create`. -/
def backupCreate (path : Bytes) : BackupProg HttpResponse :=
  maintain path (fun directory => Prog.perform (BackupCall.createNewBackup directory))
    (text "rocksdb.backup.create.error") (text "rocksdb.backup.create.success")

/-- The `POST` of `/backup_clean`. -/
def backupClean (path : Bytes) : BackupProg HttpResponse :=
  maintain path (fun directory => Prog.perform (BackupCall.purgeOldBackups directory 1))
    (text "rocksdb.backup.clean.error") (text "rocksdb.backup.clean.success")

/-- The `GET` of `/backup_info`, call by call. -/
def backupInfo (path : Bytes) : BackupProg HttpResponse := do
  let status : RocksStatus ← Prog.perform (BackupCall.openEngine (backupPath path))
  if !status.ok then return ⟨500, status.message⟩
  else
    let infos : List BackupInfo ← Prog.perform (BackupCall.getBackupInfo (backupPath path))
    Prog.perform (BackupCall.deleteEngine (backupPath path))
    return ⟨200, backupList infos⟩

inductive BackupRequest where
  | create
  | clean
  | info
  deriving DecidableEq

def BackupRequest.program (path : Bytes) : BackupRequest → BackupProg HttpResponse
  | .create => backupCreate path
  | .clean => backupClean path
  | .info => backupInfo path

/-! ## What RocksDB does -/

/-- The backups of each directory, oldest first, and how many engines are open at it. -/
structure Vault where
  kept : Bytes → List Contents
  engines : Bytes → Nat

/-- What a call does while the database holds `m`. A backup that fails is not kept, and a
purge never takes the newest ones. -/
inductive BackupEffect (m : Contents) : Vault → BackupEvent → Vault → Prop
  | opened {v : Vault} {d : Bytes} {status : RocksStatus} : status.ok = true →
      BackupEffect m v ⟨.openEngine d, status⟩
        { v with engines := Function.update v.engines d (v.engines d + 1) }
  | notOpened {v : Vault} {d : Bytes} {status : RocksStatus} : status.ok = false →
      BackupEffect m v ⟨.openEngine d, status⟩ v
  | created {v : Vault} {d : Bytes} {status : RocksStatus} : status.ok = true →
      BackupEffect m v ⟨.createNewBackup d, status⟩
        { v with kept := Function.update v.kept d (v.kept d ++ [m]) }
  | notCreated {v : Vault} {d : Bytes} {status : RocksStatus} : status.ok = false →
      BackupEffect m v ⟨.createNewBackup d, status⟩ v
  | purged {v : Vault} {d : Bytes} {keep n : Nat} {status : RocksStatus} :
      n ≤ (v.kept d).length - keep → (status.ok = true → n = (v.kept d).length - keep) →
      BackupEffect m v ⟨.purgeOldBackups d keep, status⟩
        { v with kept := Function.update v.kept d ((v.kept d).drop n) }
  | listed {v : Vault} {d : Bytes} {infos : List BackupInfo} :
      BackupEffect m v ⟨.getBackupInfo d, infos⟩ v
  | deleted {v : Vault} {d : Bytes} :
      BackupEffect m v ⟨.deleteEngine d, ()⟩
        { v with engines := Function.update v.engines d (v.engines d - 1) }
  | counted {v : Vault} {name : Bytes} : BackupEffect m v ⟨.counter name, ()⟩ v
  | crowded {v : Vault} {e : BackupEvent} {d : Bytes} {backups : List Contents} :
      (e.1 = .createNewBackup d ∨ ∃ keep, e.1 = .purgeOldBackups d keep) → 1 < v.engines d →
      BackupEffect m v e { v with kept := Function.update v.kept d backups }

/-! ## Which engine a handler has -/

/-- The engine that a call works on. -/
def BackupCall.engine : BackupCall → Option Bytes
  | .openEngine _ => none
  | .createNewBackup d => some d
  | .purgeOldBackups d _ => some d
  | .getBackupInfo d => some d
  | .deleteEngine d => some d
  | .counter _ => none

/-- The engine that is open behind a call. -/
def engineLeft : BackupEvent → Option Bytes
  | ⟨.openEngine d, status⟩ => if status.ok then some d else none
  | ⟨.createNewBackup d, _⟩ => some d
  | ⟨.purgeOldBackups d _, _⟩ => some d
  | ⟨.getBackupInfo d, _⟩ => some d
  | ⟨.deleteEngine _, _⟩ => none
  | ⟨.counter _, _⟩ => none

def frontEngine : BackupCall ⊕ HttpResponse → Option Bytes
  | .inl call => call.engine
  | .inr _ => none

theorem conclude_chained (error success : Bytes) (status : RocksStatus) :
    frontEngine (conclude error success status).front = none ∧
      (conclude error success status).Chained fun e front => frontEngine front = engineLeft e := by
  unfold conclude
  cases status.ok <;> exact ⟨rfl, fun _ => ⟨rfl, trivial⟩⟩

/-- A handler that opens an engine works on it next, until it deletes it. -/
theorem handler_chained (path : Bytes) (q : BackupRequest) :
    (q.program path).Chained fun e front => frontEngine front = engineLeft e := by
  cases q with
  | create | clean =>
    rintro ⟨ok, isNotFound, message⟩
    cases ok with
    | true => exact ⟨rfl, fun status => ⟨rfl, fun _ => conclude_chained _ _ status⟩⟩
    | false => exact ⟨rfl, fun _ => ⟨rfl, trivial⟩⟩
  | info =>
    rintro ⟨ok, isNotFound, message⟩
    cases ok with
    | true => exact ⟨rfl, fun infos => ⟨rfl, fun _ => ⟨rfl, trivial⟩⟩⟩
    | false => exact ⟨rfl, trivial⟩

/-- What the handlers of the database at `path` call: all of them work on one directory, and
a purge keeps one backup. -/
def BackupCall.Of (path : Bytes) : BackupCall → Prop
  | .openEngine d => d = backupPath path
  | .createNewBackup d => d = backupPath path
  | .purgeOldBackups d keep => d = backupPath path ∧ keep = 1
  | .getBackupInfo d => d = backupPath path
  | .deleteEngine d => d = backupPath path
  | .counter _ => True

theorem conclude_calls (path error success : Bytes) (status : RocksStatus) :
    (conclude error success status).Calls (BackupCall.Of path) := by
  unfold conclude
  cases status.ok <;> exact ⟨trivial, fun _ => trivial⟩

theorem handler_calls (path : Bytes) (q : BackupRequest) :
    (q.program path).Calls (BackupCall.Of path) := by
  cases q with
  | create =>
    refine ⟨rfl, fun ⟨ok, isNotFound, message⟩ => ?_⟩
    cases ok with
    | true => exact ⟨rfl, fun status => ⟨rfl, fun _ => conclude_calls path _ _ status⟩⟩
    | false => exact ⟨trivial, fun _ => trivial⟩
  | clean =>
    refine ⟨rfl, fun ⟨ok, isNotFound, message⟩ => ?_⟩
    cases ok with
    | true => exact ⟨⟨rfl, rfl⟩, fun status => ⟨rfl, fun _ => conclude_calls path _ _ status⟩⟩
    | false => exact ⟨trivial, fun _ => trivial⟩
  | info =>
    refine ⟨rfl, fun ⟨ok, isNotFound, message⟩ => ?_⟩
    cases ok with
    | true => exact ⟨rfl, fun infos => ⟨rfl, fun _ => trivial⟩⟩
    | false => trivial

theorem handler_front (path : Bytes) (q : BackupRequest) :
    frontEngine (q.program path).front = none := by
  cases q <;> rfl

/-! ## The engines that are open -/

abbrev HttpThreads (κ : Type) := Pool κ Vault BackupRequest BackupCall BackupResult HttpResponse

abbrev HandlerAction (κ : Type) := Action κ Vault BackupRequest BackupCall BackupResult HttpResponse

abbrev HandlerThread := Client Vault BackupRequest BackupCall BackupResult HttpResponse

/-- The engine that a thread has open: that of its next call. -/
def engineOf (c : HandlerThread) : Option Bytes := c.upcoming.bind BackupCall.engine

theorem engineOf_busy (q : BackupRequest) (past : List (Vault × BackupEvent))
    (rest : BackupProg HttpResponse) : engineOf (.busy q past rest) = frontEngine rest.front := by
  cases rest <;> rfl

/-- Opening and deleting is all that changes the number of open engines. -/
theorem BackupEffect.engines {m : Contents} {v v' : Vault} {e : BackupEvent}
    (h : BackupEffect m v e v') (d : Bytes) (hpos : e.1.engine = some d → 0 < v.engines d) :
    v'.engines d + (if e.1.engine = some d then 1 else 0) =
      v.engines d + (if engineLeft e = some d then 1 else 0) := by
  cases h with
  | @opened d' status hok =>
    by_cases hd : d = d'
    · subst hd
      simp [BackupCall.engine, engineLeft, hok]
    · simp [BackupCall.engine, engineLeft, hok, Function.update_of_ne hd, Ne.symm hd]
  | @deleted d' =>
    by_cases hd : d = d'
    · subst hd
      have hpos : 0 < v.engines d := hpos rfl
      simp [BackupCall.engine, engineLeft]
      omega
    · simp [BackupCall.engine, engineLeft, Function.update_of_ne hd, Ne.symm hd]
  | notOpened hok => simp [BackupCall.engine, engineLeft, hok]
  | created _ | notCreated _ | purged _ _ | listed | counted => rfl
  | crowded hcall _ =>
    obtain ⟨call, r⟩ := e
    rcases hcall with rfl | ⟨keep, rfl⟩ <;> rfl

section Engines

variable {κ : Type} [Fintype κ]

/-- Exactly the engines that a thread has are open. -/
def EnginesHeld (s : HttpThreads κ) : Prop :=
  ∀ d, s.world.engines d = s.tally fun c => engineOf c = some d

theorem enginesHeld_initial (kept : Bytes → List Contents) :
    EnginesHeld (Pool.initial ⟨kept, fun _ => 0⟩ : HttpThreads κ) := by
  intro d
  exact (Pool.tally_eq_zero fun i h => by cases h).symm

variable [DecidableEq κ] {path : Bytes} {allow : Vault → BackupEvent → Vault → Prop}
  {offered : BackupRequest → Prop} {s s' : HttpThreads κ} {l : HandlerAction κ}

theorem enginesHeld_step (hallow : ∀ v e v', allow v e v' → ∃ m, BackupEffect m v e v')
    (ht : Pool.OnTrack (BackupRequest.program path) offered s)
    (hs : Pool.Step (BackupRequest.program path) allow offered s l s') (h : EnginesHeld s) :
    EnginesHeld s' := by
  intro d
  have hd := h d
  cases hs with
  | @start i q hi _ =>
    have hmove := Pool.tally_move s i (.busy q [] (q.program path)) s.world
      fun c => engineOf c = some d
    have hfront := handler_front path q
    simp only [hi, engineOf_busy, hfront, reduceCtorEq, ↓reduceIte, Nat.add_zero] at hmove
    have hidle : engineOf (.idle : HandlerThread) ≠ some d := by intro h; cases h
    rw [if_neg hidle] at hmove
    show s.world.engines d = _
    omega
  | @perform i q past op next r w hi hw =>
    have hmove := Pool.tally_move s i (.busy q (past ++ [(s.world, ⟨op, r⟩)]) (next r)) w
      fun c => engineOf c = some d
    have hfront := (((handler_chained path q).reaches (ht i q past _ hi).2) r).1
    have hbefore : engineOf (s.client i) = op.engine := by
      rw [hi]
      exact engineOf_busy _ _ _
    simp only [hbefore, engineOf_busy, hfront] at hmove
    obtain ⟨m, heffect⟩ := hallow _ _ _ hw
    have hpos : op.engine = some d → 0 < s.world.engines d := by
      intro hop
      rw [hd]
      exact Pool.tally_pos (i := i) (hbefore.trans hop)
    have hengines := heffect.engines d hpos
    show w.engines d = _
    simp only at hengines
    omega
  | @finish i q past a hi =>
    have hmove := Pool.tally_move s i .idle s.world fun c => engineOf c = some d
    have hidle : engineOf (.idle : HandlerThread) ≠ some d := by intro h; cases h
    have hbefore : engineOf (s.client i) ≠ some d := by rw [hi]; intro h; cases h
    rw [if_neg hidle, if_neg hbefore] at hmove
    show s.world.engines d = _
    omega

/-! ## What a handler answers -/

/-- The work that a handler was asked for was done by one of its calls. -/
def Succeeded (path : Bytes) : BackupRequest → List BackupEvent → Prop
  | .create, es => ∃ status, RocksStatus.ok status = true ∧
      ⟨.createNewBackup (backupPath path), status⟩ ∈ es
  | .clean, es => ∃ status, RocksStatus.ok status = true ∧
      ⟨.purgeOldBackups (backupPath path) 1, status⟩ ∈ es
  | .info, es => ∃ infos, ⟨.getBackupInfo (backupPath path), infos⟩ ∈ es

theorem conclude_performs {error success : Bytes} {status : RocksStatus} {es : List BackupEvent}
    {a : HttpResponse} (h : (conclude error success status).Performs es a) :
    (∃ name, es = [⟨.counter name, ()⟩]) ∧ (a.status = 200 ↔ status.ok = true) := by
  obtain ⟨ok, isNotFound, message⟩ := status
  cases ok with
  | true =>
    have hcounted : (Prog.call (.counter success) fun _ => .done ⟨200, text "Success"⟩ :
        BackupProg HttpResponse).Performs es a := h
    obtain ⟨r, rfl, rfl⟩ := Prog.performs_single.mp hcounted
    exact ⟨⟨success, rfl⟩, iff_of_true rfl rfl⟩
  | false =>
    have hcounted : (Prog.call (.counter error) fun _ => .done ⟨500, message⟩ :
        BackupProg HttpResponse).Performs es a := h
    obtain ⟨r, rfl, rfl⟩ := Prog.performs_single.mp hcounted
    exact ⟨⟨error, rfl⟩, iff_of_false (fun h => by cases h) (fun h => by cases h)⟩

/-- What `/backup_info` answers, from what the engine has told it. -/
theorem backupInfo_performs {path : Bytes} {es : List BackupEvent} {a : HttpResponse}
    (h : (backupInfo path).Performs es a) :
    (∃ status, es = [⟨.openEngine (backupPath path), status⟩] ∧
        a = handleBackupInfo path fun _ => .error (RocksStatus.message status)) ∨
      ∃ status infos, es = [⟨.openEngine (backupPath path), status⟩,
          ⟨.getBackupInfo (backupPath path), infos⟩, ⟨.deleteEngine (backupPath path), ()⟩] ∧
        a = handleBackupInfo path fun _ => .ok infos := by
  obtain ⟨⟨ok, isNotFound, message⟩, rest, rfl, hopened⟩ := Prog.performs_call.mp h
  cases ok with
  | true =>
    obtain ⟨infos, rest, rfl, hlisted⟩ := Prog.performs_call.mp hopened
    obtain ⟨r, rest, rfl, hdeleted⟩ := Prog.performs_call.mp hlisted
    obtain ⟨rfl, rfl⟩ := Prog.performs_done.mp hdeleted
    exact .inr ⟨_, infos, rfl, rfl⟩
  | false =>
    obtain ⟨rfl, rfl⟩ := Prog.performs_done.mp hopened
    exact .inl ⟨_, rfl, rfl⟩

/-- A handler that `POST`s has done its work, between opening and deleting an engine, or was
not given one. -/
theorem maintain_performs {path : Bytes} {work : Bytes → BackupProg RocksStatus}
    {error success : Bytes} {es : List BackupEvent} {a : HttpResponse}
    (h : (maintain path work error success).Performs es a) :
    (∃ status name, es = [⟨.openEngine (backupPath path), status⟩, ⟨.counter name, ()⟩] ∧
        a.status ≠ 200) ∨
      ∃ opened status worked name, (work (backupPath path)).Performs worked status ∧
        es = ⟨.openEngine (backupPath path), opened⟩ ::
          (worked ++ [⟨.deleteEngine (backupPath path), ()⟩, ⟨.counter name, ()⟩]) ∧
        (a.status = 200 ↔ status.ok = true) := by
  obtain ⟨opened, rest, rfl, hopened⟩ := Prog.performs_call.mp h
  have hrest : (if opened.ok then
      work (backupPath path) >>= fun status => .call (.deleteEngine (backupPath path)) fun _ =>
        conclude error success status
      else conclude error success opened).Performs rest a := hopened
  split at hrest
  · obtain ⟨status, worked, deleted, rfl, hworked, hdeleted⟩ := Prog.performs_bind.mp hrest
    obtain ⟨r, counted, rfl, hcounted⟩ := Prog.performs_call.mp hdeleted
    obtain ⟨⟨name, rfl⟩, ha⟩ := conclude_performs hcounted
    exact .inr ⟨opened, status, worked, name, hworked, rfl, ha⟩
  · next hok =>
    obtain ⟨⟨name, rfl⟩, ha⟩ := conclude_performs hrest
    exact .inl ⟨opened, name, rfl, fun h => hok (ha.mp h)⟩

theorem handler_answers {path : Bytes} {q : BackupRequest} {es : List BackupEvent}
    {a : HttpResponse} (h : (q.program path).Performs es a) :
    a.status = 200 ↔ Succeeded path q es := by
  cases q with
  | create | clean =>
    simp only [BackupRequest.program, backupCreate, backupClean] at h
    rcases maintain_performs h with ⟨status, name, rfl, ha⟩ | ⟨opened, status, worked, name,
      hworked, rfl, ha⟩
    · simp [Succeeded, ha]
    · obtain ⟨r, rfl, rfl⟩ := Prog.performs_single.mp hworked
      simp [Succeeded, ha]
  | info =>
    rcases backupInfo_performs h with ⟨status, rfl, rfl⟩ | ⟨status, infos, rfl, rfl⟩
    · simp [Succeeded, handleBackupInfo]
    · simp [Succeeded, handleBackupInfo]

/-! ## Over a run -/

/-- The threads of the HTTP server, over a RocksDB that answers as it likes. -/
abbrev Handling (path : Bytes) (kept : Bytes → List Contents)
    (ts : List (Transition (HttpThreads κ) (HandlerAction κ))) (s : HttpThreads κ) : Prop :=
  Run (Pool.Step (BackupRequest.program path) (fun v e v' => ∃ m, BackupEffect m v e v')
    fun _ => True) (Pool.initial ⟨kept, fun _ => 0⟩) ts s

/-- Engines are deleted by those who opened them, and the answers are what was done. -/
structure EnginesKept (path : Bytes) (ts : List (Transition (HttpThreads κ) (HandlerAction κ)))
    (s : HttpThreads κ) : Prop where
  held : EnginesHeld s
  deleted : ∀ t ∈ ts, ∀ i q d, t.label = .perform i q ⟨.deleteEngine d, ()⟩ →
    0 < t.before.world.engines d
  clear : (∀ i, s.client i = .idle) → ∀ d, s.world.engines d = 0
  answers : ∀ t ∈ ts, ∀ i q past a, t.label = .finish i q past a →
    (a.status = 200 ↔ Succeeded path q (Pool.events past))

theorem enginesHeld_run {kept : Bytes → List Contents}
    {ts : List (Transition (HttpThreads κ) (HandlerAction κ))} (h : Handling path kept ts s) :
    EnginesHeld s := by
  refine h.history (fun _ => True) (fun _ s => EnginesHeld s) (enginesHeld_initial kept) ?_
    fun _ _ => trivial
  intro ts s l s' hrun hheld hs _
  exact enginesHeld_step (fun _ _ _ => id) (Pool.onTrack_run hrun) hs hheld

/-- **No engine is leaked**, and none is deleted that is not open: the engines open at a
directory are those of the threads between their opening and their deleting. A handler
answers 200 exactly if RocksDB has done its work. -/
theorem engines_kept {kept : Bytes → List Contents}
    {ts : List (Transition (HttpThreads κ) (HandlerAction κ))} (h : Handling path kept ts s) :
    EnginesKept path ts s where
  held := enginesHeld_run h
  deleted t ht i q d hl := by
    obtain ⟨ts₁, hrun, hstep, -⟩ := h.of_mem ht
    rw [hl] at hstep
    obtain ⟨past, next, hi, -, -⟩ := hstep.perform_inv
    rw [enginesHeld_run hrun d]
    refine Pool.tally_pos (i := i) ?_
    rw [hi]
    rfl
  clear hidle d := by
    rw [enginesHeld_run h d]
    refine Pool.tally_eq_zero fun i hengine => ?_
    rw [hidle i] at hengine
    cases hengine
  answers t ht i q past a hl := handler_answers (Pool.finished_run h ht hl).2.1

end Engines

/-- A status of a call that succeeds. -/
def fineStatus : RocksStatus := ⟨true, false, text "OK"⟩

/-- Two threads have an engine each, at one directory. -/
theorem engines_kept_crowded :
    ∃ (ts : List (Transition (HttpThreads Bool) (HandlerAction Bool))) (s : HttpThreads Bool),
      Handling (text "db") (fun _ => []) ts s ∧ s.world.engines (text "db_backup") = 2 ∧
        EnginesKept (text "db") ts s := by
  let s₀ : HttpThreads Bool := Pool.initial ⟨fun _ => [], fun _ => 0⟩
  have h₀ : Handling (text "db") (fun _ => []) [] s₀ := .start
  have h₁ := h₀.snoc (.start (i := true) (q := .create) rfl trivial)
  have h₂ := h₁.snoc (.start (i := false) (q := .clean) rfl trivial)
  have h₃ := h₂.snoc (.perform (i := true) (r := fineStatus) rfl
    ⟨fun _ => none, .opened rfl⟩)
  have h₄ := h₃.snoc (.perform (i := false) (r := fineStatus) rfl
    ⟨fun _ => none, .opened rfl⟩)
  exact ⟨_, _, h₄, by decide, engines_kept h₄⟩

end Quitsies.Service
